/-
# Nodes that are about to answer

A request that is handed to the service is answered at once, or when its waits are over, or
never.  `answerings` names the moments in an event at which an answer is about to leave, each
with the node as it is then; it follows the program and changes nothing.  Between these moments
a node only does what every sending relation covers (`Passes`).
-/
import Coap.Proofs.Engine.Sending

namespace Coap

/-- An answer, and the node that is about to send it. -/
structure Answering extends Answer where
  node : Engine

/-- The node that has sent the answer. -/
def Answering.after (a : Answering) : Engine := a.node.answer a.peer a.request a.response

namespace Engine

variable {e e' : Engine} {peer : Endpoint} {m request : Message} {P : Engine → Engine → Prop}

/-! ## Reactions -/

/-- The answer that a reaction makes at once, and the node that is about to send it. -/
def answering? (e : Engine) (peer : Endpoint) (request : Message) : Reaction → Option Answering
  | .respond response =>
    some { peer, request, reaction := .respond response, response, node := e }
  | .fail failure =>
    let response := failure.respond request
    some { peer, request, reaction := .fail failure, response, node := e }
  | .render id =>
    let (rendered, subscriptions) := e.subscriptions.render id request.accept?
    some {
      peer, request, reaction := .render id, response := stateResponse request rendered
      node := { e with subscriptions } }
  | .abandon =>
    some { peer, request, reaction := .abandon, response := abandoned.respond request, node := e }
  | .hold => none
  | .after delay reaction =>
    if Instant.tick (e.now + delay) ≤ e.now then e.answering? peer request reaction else none

/-- These are the answers that reactions make. -/
theorem map_toAnswer_answering? (e : Engine) (peer : Endpoint) (request : Message)
    (reaction : Reaction) :
    (e.answering? peer request reaction).map Answering.toAnswer =
      e.answer? peer request reaction := by
  unfold answer?
  induction reaction with
  | after delay reaction ih =>
    unfold answering? reply?
    split
    · exact ih
    · rfl
  | _ => rfl

/-- What is answered at once was made by a handler. -/
theorem made_answering? {a : Answering} {reaction : Reaction}
    (h : a ∈ e.answering? peer request reaction) : Made a.toAnswer := by
  have hanswer : a.toAnswer ∈ e.answer? peer request reaction := by
    rw [← map_toAnswer_answering?, Option.mem_def, Option.mem_def.1 h, Option.map_some]
  exact made_answer? hanswer

/-- **To react is to answer, or to let the request wait, or neither.** -/
theorem react_eq (e : Engine) (peer : Endpoint) (request : Message) (reaction : Reaction) :
    e.react peer request reaction =
      match e.answering? peer request reaction with
      | some a => a.after
      | none =>
        { e with delayed := e.delayed ++ (e.wait? peer request reaction).toList } := by
  induction reaction with
  | respond | fail | abandon => rfl
  | render id => exact answerState_eq e peer request id
  | hold => simp [react, answering?, wait?]
  | after delay reaction ih =>
    unfold react answering? wait?
    simp only
    split
    · exact ih
    · rfl

/-- What is answered at once does not wait. -/
theorem wait?_of_answering? {reaction : Reaction} {a : Answering}
    (h : e.answering? peer request reaction = some a) : e.wait? peer request reaction = none := by
  induction reaction with
  | hold => cases h
  | after delay reaction ih =>
    unfold answering? at h
    unfold wait?
    split at h
    · next hsoon =>
      rw [if_pos hsoon]
      exact ih h
    · cases h
  | _ => rfl

/-- The node that is about to answer has rendered a resource at most. -/
theorem silent_answering? {reaction : Reaction} {a : Answering}
    (h : e.answering? peer request reaction = some a) : Silent e a.node := by
  induction reaction with
  | respond | fail | abandon =>
    cases h
    exact .refl e
  | render id =>
    cases h
    exact .books e _ _ _ _ _
  | hold => cases h
  | after delay reaction ih =>
    unfold answering? at h
    split at h
    · exact ih h
    · cases h

/-! ## Requests that are handed to the service -/

/-- The node after a received message has passed the layers of exchanges, as far as it does. -/
def heard (e : Engine) (peer : Endpoint) (m : Message) : Engine :=
  let e' : Engine := { e with outgoing := (e.outgoing.receive peer m).2.2 }
  match (e.outgoing.receive peer m).1 with
  | .forward _ =>
    { e' with incoming := (e.incoming.receive e.now peer m).2.2 }.transmitAll
      ((e.incoming.receive e.now peer m).2.1.map (peer, ·))
  | _ => e'

/-- The node when the service has been handed the request that a message turned out to be, and
has called a handler for it. -/
def reached (e : Engine) (peer : Endpoint) (m request : Message) : Engine :=
  let e' : Engine := { e.heard peer m with
    transfers := (e.transfers.receive e.now peer m).2
    subscriptions := (e.subscriptions.receive peer request).2 }
  match (e.service { message := request, peer }).handler? with
  | some name => e'.note (.called name)
  | none => e'

/-- What is heard changes the exchanges and the log only. -/
theorem heard_frame (e : Engine) (peer : Endpoint) (m : Message) : ∃ outgoing incoming log,
    e.heard peer m = { e with outgoing, incoming, log } := by
  unfold heard
  simp only
  split
  · obtain ⟨log, hlog⟩ := transmitAll_frame
      ((e.incoming.receive e.now peer m).2.1.map (peer, ·))
      { e with
        outgoing := (e.outgoing.receive peer m).2.2
        incoming := (e.incoming.receive e.now peer m).2.2 }
    exact ⟨_, _, log, hlog⟩
  · exact ⟨_, _, _, rfl⟩

/-- The layers of transfers and subscriptions take notice of a message. -/
theorem silent_heard (e : Engine) (peer : Endpoint) (m : Message)
    (subscriptions : Subscriptions) : Silent (e.heard peer m)
      { e.heard peer m with transfers := (e.transfers.receive e.now peer m).2, subscriptions } := by
  obtain ⟨outgoing, incoming, log, hheard⟩ := heard_frame e peer m
  have hblocks := Silent.transfers (e.heard peer m) (.receive peer m)
  rw [hheard] at hblocks ⊢
  exact hblocks.trans (.books _ subscriptions _ _ _ _)

/-- A request is handed over if all layers hand it on. -/
theorem handed?_eq_some_iff : e.handed? peer m = some request ↔ e.Admits peer m ∧
    (e.transfers.receive e.now peer m).1 = .forward request ∧
    (e.subscriptions.receive peer request).1 = .forward request ∧ request.isRequest = true := by
  have hforwarded {m' : Message} {v : Verdict} : v.forwarded? = some m' ↔ v = .forward m' := by
    cases v <;> simp [Verdict.forwarded?]
  have hlets {m m' : Message} {v : Verdict} (hv : v.Lets m) (h : v = .forward m') : m' = m := by
    rcases hv with rfl | rfl
    · exact (Verdict.forward.inj h).symm
    · cases h
  simp only [handed?, Option.filter_eq_some_iff, Option.bind_eq_some_iff, hforwarded, Admits]
  constructor
  · rintro ⟨⟨m₁, hout, m₂, hin, m₃, htransfers, hsubscriptions⟩, hrequest⟩
    obtain rfl := hlets (e.outgoing.lets_receive peer m) hout
    obtain rfl := hlets (e.incoming.lets_receive e.now peer _) hin
    obtain rfl := hlets (e.subscriptions.lets_receive peer _) hsubscriptions
    exact ⟨⟨hout, hin⟩, htransfers, hsubscriptions, hrequest⟩
  · rintro ⟨⟨hout, hin⟩, htransfers, hsubscriptions, hrequest⟩
    exact ⟨⟨m, hout, m, hin, request, htransfers, hsubscriptions⟩, hrequest⟩

/-- A request is handed on with the header that it came with. -/
theorem sameHeader_handed (h : e.handed? peer m = some request) : m.SameHeader request :=
  Transfers.sameHeader_receive (handed?_eq_some_iff.1 h).2.1

/-- A message that is admitted passes on to the layers of transfers and subscriptions. -/
theorem absorb_eq_heard (e : Engine) (peer : Endpoint) (m : Message) : e.absorb peer m =
    if e.Admits peer m then (e.heard peer m).receiveInBlocks peer m else e.heard peer m := by
  rcases e.outgoing.lets_receive peer m with hout | hout
  · rcases e.incoming.lets_receive e.now peer m with hin | hin
    · have hadmits : e.Admits peer m := ⟨hout, hin⟩
      rw [if_pos hadmits]
      unfold absorb heard
      simp only [hout, receiveReliably, hin]
    · have hrefused : ¬ e.Admits peer m := by
        rintro ⟨-, hnew⟩
        rw [hin] at hnew
        cases hnew
      rw [if_neg hrefused]
      unfold absorb heard
      simp only [hout, receiveReliably, hin]
  · have hrefused : ¬ e.Admits peer m := by
      rintro ⟨hpassed, -⟩
      rw [hout] at hpassed
      cases hpassed
    rw [if_neg hrefused]
    unfold absorb heard
    simp only [hout]

/-- **A request that is handed over is reacted to, and nothing else happens.** -/
theorem absorb_of_handed (h : e.handed? peer m = some request) : e.absorb peer m =
    (e.reached peer m request).react peer request
      (e.service { message := request, peer }).reaction := by
  obtain ⟨hadmits, htransfers, hsubscriptions, hrequest⟩ := handed?_eq_some_iff.1 h
  rw [absorb_eq_heard, if_pos hadmits]
  obtain ⟨outgoing, incoming, log, hheard⟩ := heard_frame e peer m
  unfold reached
  rw [hheard]
  unfold receiveInBlocks
  simp only [htransfers, receiveObserved, hsubscriptions, accept_eq, hrequest, if_true]
  rfl

/-- A message that is no request is passed on to its requester, rejected or dropped. -/
theorem RejectingFrame.absorb_of_not_request (h : RejectingFrame P)
    (hrequest : ¬ m.isRequest = true) (e : Engine) (peer : Endpoint) :
    P (e.heard peer m) (e.absorb peer m) := by
  rw [absorb_eq_heard]
  split
  · have htransfers (s : Transfers) (now : Instant) : s.receive now peer m = (.forward m, s) := by
      simp [Transfers.receive, hrequest]
    generalize e.heard peer m = e₁
    unfold receiveInBlocks receiveObserved
    simp only [htransfers]
    have hlayer : P e₁ { e₁ with subscriptions := (e₁.subscriptions.receive peer m).2 } :=
      h.silent (.books e₁ _ _ _ _ _)
    rcases e₁.subscriptions.lets_receive peer m with hlets | hlets
    · simp only [hlets]
      refine h.trans hlayer ?_
      rw [accept_eq, if_neg hrequest]
      split
      · exact h.deliver _ peer m
      · exact h.silent (.refl _)
    · simp only [hlets]
      exact hlayer
  · exact h.silent (.refl _)

/-- **A message that is not handed over is passed on or answered by a layer.** -/
theorem SendingFrame.absorb {Sends : Endpoint → Message → Prop} (h : SendingFrame P Sends)
    (hnot : e.handed? peer m = none)
    (hreplied : e.Admits peer m → ∀ answer,
      (e.transfers.receive e.now peer m).1 = .reply answer → Sends peer answer) :
    P (e.heard peer m) (e.absorb peer m) := by
  rw [absorb_eq_heard]
  split
  · next hadmits =>
    obtain ⟨outgoing, incoming, log, hheard⟩ := heard_frame e peer m
    have hlayers := fun subscriptions => h.silent (silent_heard e peer m subscriptions)
    have htransfers : (e.heard peer m).transfers.receive (e.heard peer m).now peer m =
        e.transfers.receive e.now peer m := by rw [hheard]
    have hsubscriptions : (e.heard peer m).subscriptions = e.subscriptions := by rw [hheard]
    generalize e.heard peer m = e₁ at htransfers hsubscriptions hlayers ⊢
    unfold receiveInBlocks
    simp only [htransfers]
    split
    · next m' hforwarded =>
      unfold receiveObserved
      simp only
      rw [hsubscriptions]
      rcases e.subscriptions.lets_receive peer m' with hlets | hlets
      · simp only [hlets]
        refine h.trans (hlayers (e.subscriptions.receive peer m').2) ?_
        -- a request would have been handed over
        have hrequest : ¬ m'.isRequest = true := fun hrequest => by
          rw [handed?_eq_some_iff.2 ⟨hadmits, hforwarded, hlets, hrequest⟩] at hnot
          cases hnot
        rw [accept_eq, if_neg hrequest]
        split
        · exact h.deliver _ peer m'
        · exact h.refl _
      · simp only [hlets]
        exact hlayers _
    · exact hlayers _
    · next answer hanswer =>
      exact h.trans (hlayers _) (h.reliably _ peer (hreplied hadmits answer hanswer))
  · exact h.refl _

/-! ## Answers in an event -/

/-- When a message has been dealt with, the books are put in order. -/
theorem clerical_receive (e : Engine) (peer : Endpoint) (m : Message) :
    Clerical (e.absorb peer m) (e.receive peer m) := by
  rw [receive_eq_absorb]
  exact .trans (.concludeAll _ _) (.settle _)

/-- So they are when the handlers have gone on whose waits are over. -/
theorem clerical_fire (now : Instant) (e : Engine) :
    Clerical (resumeDue now (beforeResuming now e)) (fire now e) := by
  rw [fire_eq]
  exact .trans (.expireDue now _) (.settle _)

/-- The answers that the given requests get one after the other. -/
def resumed (e : Engine) : List Delayed → List Answering
  | [] => []
  | d :: rest =>
    (e.answering? d.peer d.request d.reaction).toList ++
      (e.react d.peer d.request d.reaction).resumed rest

/-- The answers of the requests whose waits are over. -/
def resumedAt (now : Instant) (e : Engine) : List Answering :=
  { e with delayed := e.delayed.filter (now < ·.due) }.resumed (e.delayed.filter (·.due ≤ now))

/-- The answers that leave in an event, in order. -/
def answerings (e : Engine) : Event → List Answering
  | .handle peer (.ok m) | .absorb peer m =>
    (e.handed? peer m).toList.flatMap fun request =>
      ((e.reached peer m request).answering? peer request
        (e.service { message := request, peer }).reaction).toList
  | .resumeDue now => resumedAt now e
  | .fire now => resumedAt now (beforeResuming now e)
  | _ => []

/-- An event that may answer a request: a message comes in, or a wait is over. -/
def Event.MayAnswer : Event → Prop
  | .handle _ (.ok _) | .absorb _ _ | .resumeDue _ | .fire _ => True
  | _ => False

/-- Answers are given in those events only that may answer. -/
theorem answerings_of_not_mayAnswer {event : Event} (h : ¬ event.MayAnswer) :
    e.answerings event = [] := by
  cases event with
  | handle peer decoded =>
    cases decoded with
    | error fault => rfl
    | ok m => exact absurd trivial h
  | absorb | resumeDue | fire => exact absurd trivial h
  | _ => rfl

/-- Every answer that leaves in an event is what a reaction makes. -/
theorem made_answerings (event : Event) : ∀ a ∈ e.answerings event, Made a.toAnswer := by
  have hresumed (due : List Delayed) (e : Engine) : ∀ a ∈ e.resumed due, Made a.toAnswer := by
    induction due generalizing e with
    | nil => exact fun _ ha => by cases ha
    | cons d rest ih =>
      intro a ha
      rcases List.mem_append.1 ha with hfirst | hrest
      · exact made_answering? (Option.mem_toList.1 hfirst)
      · exact ih _ a hrest
  have hserved (peer : Endpoint) (m : Message) :
      ∀ a ∈ e.answerings (.absorb peer m), Made a.toAnswer := by
    intro a ha
    obtain ⟨request, -, hrequest⟩ := List.mem_flatMap.1 ha
    exact made_answering? (Option.mem_toList.1 hrequest)
  cases event with
  | handle peer decoded =>
    cases decoded with
    | ok m => exact hserved peer m
    | error fault => exact fun _ ha => by cases ha
  | absorb peer m => exact hserved peer m
  | resumeDue now => exact hresumed _ _
  | fire now => exact hresumed _ _
  | _ => exact fun _ ha => by cases ha

/-- The clock does not go back, and the parts of what is due happen at its time. -/
def Event.Timely (e : Engine) : Event → Prop
  | .fire now | .pass now => e.now ≤ now
  | .repeatDue now | .sweepDue now | .resumeDue now => now = e.now
  | _ => True

/-- From one node to another the relation holds, but for the answers that leave meanwhile. -/
inductive Passes (P : Engine → Engine → Prop) : Engine → List Answering → Engine → Prop
  | still {e e' : Engine} (h : P e e') : Passes P e [] e'
  | answer {e e' : Engine} {a : Answering} {rest : List Answering} (h : P e a.node)
      (hrest : Passes P a.after rest e') : Passes P e (a :: rest) e'

namespace Passes

variable {answers answers' : List Answering} {e'' : Engine}

/-- Something may come before the answers that are passed. -/
theorem before (h : P e e') (hpasses : Passes P e' answers e'')
    (htrans : ∀ {e e' e''}, P e e' → P e' e'' → P e e'') : Passes P e answers e'' := by
  cases hpasses with
  | still hlater => exact .still (htrans h hlater)
  | answer hlater hrest => exact .answer (htrans h hlater) hrest

/-- Answers may be passed in two rows. -/
theorem append (h : Passes P e answers e') (h' : Passes P e' answers' e'')
    (htrans : ∀ {e e' e''}, P e e' → P e' e'' → P e e'') :
    Passes P e (answers ++ answers') e'' := by
  induction h with
  | still h => exact .before h h' htrans
  | answer h _ ih => exact .answer h (ih h')

/-- Something may come after the answers that are passed. -/
theorem after (h : Passes P e answers e') (h' : P e' e'')
    (htrans : ∀ {e e' e''}, P e e' → P e' e'' → P e e'') : Passes P e answers e'' := by
  have hall := h.append (.still h') htrans
  rwa [List.append_nil] at hall

/-- The relation holds across answers for which it holds as well, before and after each. -/
theorem across (h : Passes P e answers e') (hanswers : ∀ a ∈ answers, P a.node a.after)
    (htrans : ∀ {e e' e''}, P e e' → P e' e'' → P e e'') :
    P e e' ∧ ∀ a ∈ answers, P e a.node ∧ P a.after e' := by
  induction h with
  | still h => exact ⟨h, fun _ ha => by cases ha⟩
  | answer h _ ih =>
    obtain ⟨hfirst, hrest⟩ := List.forall_mem_cons.1 hanswers
    obtain ⟨hend, hall⟩ := ih hrest
    have hover := htrans h hfirst
    exact ⟨htrans hover hend, List.forall_mem_cons.2
      ⟨⟨h, hend⟩, fun a ha => ⟨htrans hover (hall a ha).1, (hall a ha).2⟩⟩⟩

end Passes

namespace SendingFrame

variable {Sends : Endpoint → Message → Prop} (h : SendingFrame P Sends)
  (hdelayed : ∀ e delayed, P e { e with delayed })

include h hdelayed

/-- A reaction passes the answer that it gives, if it gives one. -/
theorem passes_react (e : Engine) (peer : Endpoint) (request : Message) (reaction : Reaction) :
    Passes P e (e.answering? peer request reaction).toList (e.react peer request reaction) := by
  rw [react_eq]
  cases hanswering : e.answering? peer request reaction with
  | none => exact .still (hdelayed e _)
  | some a => exact .answer (h.silent (silent_answering? hanswering)) (.still (h.refl _))

/-- The answers that are due are passed one after another. -/
theorem passes_resume (due : List Delayed) (e : Engine) :
    Passes P e (e.resumed due) (e.resume due) := by
  induction due generalizing e with
  | nil => exact .still (h.refl e)
  | cons d rest ih => exact (h.passes_react hdelayed e _ _ _).append (ih _) h.trans

/-- When timers fire, the answers that are due are passed. -/
theorem passes_resumeDue (now : Instant) (e : Engine) :
    Passes P e (resumedAt now e) (resumeDue now e) :=
  .before (hdelayed e _) (h.passes_resume hdelayed _ _) h.trans

omit hdelayed in
/-- What comes before them is sent, too. -/
theorem beforeResuming {now : Instant} (hnow : e.now ≤ now) : P e (beforeResuming now e) := by
  have hclock : (repeatDue now { e with now }).now = now := by
    obtain ⟨log, hlog⟩ := transmitAll_frame (e.outgoing.fire e.outboxOpen now).1.sent
      { e with now, outgoing := (e.outgoing.fire e.outboxOpen now).2 }
    exact congrArg Engine.now hlog
  have hconcluded := Clerical.concludeAll (e.outgoing.fire e.outboxOpen now).1.events
    (repeatDue now { e with now })
  have hswept := h.swept ((repeatDue now { e with now }).concludeAll
    (e.outgoing.fire e.outboxOpen now).1.events)
  rw [hconcluded.now, hclock] at hswept
  exact h.trans (h.trans (h.trans (h.clock e now hnow) (h.repeated { e with now }))
    (h.silent hconcluded.silent)) hswept

omit hdelayed in
/-- A request reaches the service with nothing sent but what the layers say. -/
theorem reached (e : Engine) (peer : Endpoint) (m request : Message) :
    P (e.heard peer m) (e.reached peer m request) := by
  refine h.silent ?_
  have hlayers := silent_heard e peer m (e.subscriptions.receive peer request).2
  unfold Engine.reached
  simp only
  split
  · exact hlayers.trans (.note _ rfl)
  · exact hlayers

/-- What is brought passes the answer that it gets. -/
theorem passes_absorb (e : Engine) (peer : Endpoint) (m : Message)
    (hreplied : e.Admits peer m → ∀ answer,
      (e.transfers.receive e.now peer m).1 = .reply answer → Sends peer answer) :
    Passes P (e.heard peer m) (e.answerings (.absorb peer m)) (e.absorb peer m) := by
  unfold answerings
  simp only
  cases hhanded : e.handed? peer m with
  | none => exact .still (h.absorb hhanded hreplied)
  | some request =>
    rw [absorb_of_handed hhanded]
    simp only [Option.toList_some, List.flatMap_cons, List.flatMap_nil, List.append_nil]
    exact .before (h.reached e peer m request) (h.passes_react hdelayed _ _ _ _) h.trans

/-- What happens after a message has passed the layers of exchanges. -/
theorem passes_brought {event : Event} (hbrings : event.Brings peer m)
    (hsends : event.SendsOnly Sends e) :
    Passes P (e.heard peer m) (e.answerings event) (e.step event) := by
  have habsorbed := h.passes_absorb hdelayed e peer m fun hadmits answer =>
    hsends.replied peer m answer hbrings hadmits
  rcases hbrings with rfl | rfl
  · exact habsorbed.after (h.silent (clerical_receive e peer m).silent) h.trans
  · exact habsorbed

omit hdelayed in
/-- Whatever happens that makes no answer. -/
theorem step {event : Event} (hevent : ¬ event.MayAnswer) (htimely : event.Timely e)
    (hsends : event.SendsOnly Sends e)
    (hrejected : ∀ peer fault, event = .handle peer (.error fault) → P e (e.reject peer fault))
    (hsubmitted : ∀ peer m r, event = .submit peer m r → P e (e.submit peer m r).2) :
    P e (e.step event) := by
  have hclerical {e e' : Engine} (hkept : Clerical e e') : P e e' := h.silent hkept.silent
  cases event with
  | submit peer m r => exact hsubmitted peer m r rfl
  | cancel key => exact hclerical (.cancel e key)
  | handle peer decoded =>
    cases decoded with
    | error fault => exact hrejected peer fault rfl
    | ok m => exact absurd trivial hevent
  | absorb | resumeDue | fire => exact absurd trivial hevent
  | conclude event => exact hclerical (.conclude e event)
  | repeatDue now =>
    obtain rfl : now = e.now := htimely
    exact h.repeated e
  | sweepDue now =>
    obtain rfl : now = e.now := htimely
    exact h.swept e
  | expire key number => exact hclerical (.expire e key number)
  | settle => exact hclerical (.settle e)
  | announce id change => exact h.announce e id change (hsends.notified id change rfl)
  | setState id state => exact h.silent (.books e _ _ _ _ _)
  | closeOutbox => exact h.closed e
  | serve service => exact h.silent (.under e service)
  | pass now => exact h.clock e now htimely

/-- **Between the answers of an event nothing happens that the relation does not cover**, if it
covers the message that comes in, its rejection, or the request that is submitted. -/
theorem passes_step {event : Event} (htimely : event.Timely e)
    (hsends : event.SendsOnly Sends e)
    (hheard : ∀ peer m, event.Brings peer m → P e (e.heard peer m))
    (hrejected : ∀ peer fault, event = .handle peer (.error fault) → P e (e.reject peer fault))
    (hsubmitted : ∀ peer m r, event = .submit peer m r → P e (e.submit peer m r).2) :
    Passes P e (e.answerings event) (e.step event) := by
  by_cases hevent : event.MayAnswer
  · cases event with
    | handle peer decoded =>
      cases decoded with
      | error fault => exact absurd hevent id
      | ok m =>
        have hbrings : (Event.handle peer (.ok m)).Brings peer m := .inl rfl
        exact .before (hheard peer m hbrings) (h.passes_brought hdelayed hbrings hsends) h.trans
    | absorb peer m =>
      exact .before (hheard peer m (.inr rfl)) (h.passes_brought hdelayed (.inr rfl) hsends) h.trans
    | resumeDue now => exact h.passes_resumeDue hdelayed now e
    | fire now =>
      have hresumed : Passes P e _ _ := .before (h.beforeResuming htimely)
        (h.passes_resumeDue hdelayed now (Engine.beforeResuming now e)) h.trans
      exact hresumed.after (h.silent (clerical_fire now e).silent) h.trans
    | _ => exact absurd hevent id
  · rw [answerings_of_not_mayAnswer hevent]
    exact .still (h.step hevent htimely hsends hrejected hsubmitted)

end SendingFrame

end Engine

end Coap
