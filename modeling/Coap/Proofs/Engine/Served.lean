/-
# What becomes of the requests a node serves

A request that has passed all layers is handed to the service, which answers it at once or later,
or leaves it.  `servings` and `answered` say which requests an event hands over and which
responses it makes; both follow the program through the event, and change nothing.  Each request
that is handed over is answered once at most, and without observers all that the node comes to
say besides acknowledgements and rejections are these answers (`Serves`).
-/
import Coap.Proofs.Engine.Reacting

namespace Coap

/-! ## Messages that are let through -/

/-- The message that is handed on. -/
def Verdict.forwarded? : Verdict → Option Message
  | .forward m => some m
  | _ => none

/-- A message that is let through is remembered for its lifetime. -/
theorem Incoming.remembers_of_forward {s : Incoming} {t : Instant} (last : Instant)
    {peer : Endpoint} {m : Message} (hm : Watched m)
    (hforward : (s.receive t peer m).1 = .forward m)
    (hlong : ∀ lifetime, s.lifetime? m = some lifetime → last < lifetime) :
    ¬ s.Remembers t ⟨peer, m.id⟩ ∧ (s.receive t peer m).2.2.Remembers last ⟨peer, m.id⟩ := by
  obtain ⟨lifetime, hlifetime, hhandled⟩ := handled_receive s t peer hm
  rw [hforward] at hhandled
  generalize (s.receive t peer m).2.2 = s' at hhandled
  cases hhandled with
  | fresh hnew _ hs' =>
    refine ⟨hnew, (hs' last _).2 ?_⟩
    rw [if_pos rfl]
    exact Nat.lt_of_lt_of_le (hlong lifetime hlifetime) (Nat.le_add_left _ _)

theorem Incoming.lt_lifetime {last : Instant} {m : Message} (s : Incoming)
    (h : last < s.exchangeLifetime ∧ last < s.nonLifetime) (lifetime : Duration)
    (hlifetime : s.lifetime? m = some lifetime) : last < lifetime := by
  unfold lifetime? at hlifetime
  split at hlifetime
  · exact Option.some.inj hlifetime ▸ h.1
  · exact Option.some.inj hlifetime ▸ h.2
  · cases hlifetime
  · cases hlifetime

namespace Engine

variable {e e' : Engine} {peer : Endpoint} {m request : Message} {last : Instant}

/-! ## What events serve and answer -/

/-- The request that is handed to the service when a message is received: a message that all
layers hand on. -/
def handed? (e : Engine) (peer : Endpoint) (m : Message) : Option Message :=
  ((e.outgoing.receive peer m).1.forwarded?.bind fun m =>
    (e.incoming.receive e.now peer m).1.forwarded?.bind fun m =>
      (e.transfers.receive e.now peer m).1.forwarded?.bind fun m =>
        (e.subscriptions.receive peer m).1.forwarded?).filter Message.isRequest

/-- The requests that an event hands to the service. -/
def servings (e : Engine) : Event → List Serving
  | .handle peer (.ok m) | .absorb peer m =>
    (e.handed? peer m).toList.map fun request =>
      ⟨peer, request, e.service { message := request, peer }⟩
  | _ => []

/-- An event hands over one request at most. -/
theorem servings_cases (e : Engine) (event : Event) :
    e.servings event = [] ∨ ∃ s, e.servings event = [s] := by
  have harrival (peer : Endpoint) (m : Message) :
      e.servings (.absorb peer m) = [] ∨ ∃ s, e.servings (.absorb peer m) = [s] := by
    unfold servings
    simp only
    cases e.handed? peer m with
    | none => exact .inl rfl
    | some request => exact .inr ⟨_, rfl⟩
  cases event with
  | handle peer decoded =>
    cases decoded with
    | ok m => exact harrival peer m
    | error fault => exact .inl rfl
  | absorb peer m => exact harrival peer m
  | _ => exact .inl rfl

/-- The answers of the requests whose waits are over. -/
def awakened (now : Instant) (e : Engine) : List Answer :=
  { e with delayed := e.delayed.filter (now < ·.due) }.answers (e.delayed.filter (·.due ≤ now))

/-- The node at a time, when everything has happened that comes before the handlers go on. -/
def beforeResuming (now : Instant) (e : Engine) : Engine :=
  sweepDue now ((repeatDue now { e with now }).concludeAll
    (e.outgoing.fire e.outboxOpen now).1.events)

/-- The answers that an event makes. -/
def answered (e : Engine) : Event → List Answer
  | .handle peer (.ok m) | .absorb peer m =>
    (e.servings (.absorb peer m)).flatMap fun s =>
      (e.answer? s.peer s.request s.call.reaction).toList
  | .resumeDue now => awakened now e
  | .fire now => awakened now (beforeResuming now e)
  | _ => []

theorem made_answers (due : List Delayed) : ∀ a ∈ e.answers due, Made a := by
  induction due generalizing e with
  | nil => exact fun _ ha => by cases ha
  | cons d rest ih =>
    intro a ha
    rcases List.mem_append.1 ha with hfirst | hrest
    · exact made_answer? (Option.mem_toList.1 hfirst)
    · exact ih a hrest

/-- All answers are what reactions make. -/
theorem made_answered (e : Engine) (event : Event) : ∀ a ∈ e.answered event, Made a := by
  have hserved (peer : Endpoint) (m : Message) : ∀ a ∈ e.answered (.absorb peer m), Made a := by
    intro a ha
    obtain ⟨s, -, hs⟩ := List.mem_flatMap.1 ha
    exact made_answer? (Option.mem_toList.1 hs)
  cases event with
  | handle peer decoded =>
    cases decoded with
    | ok m => exact hserved peer m
    | error fault => exact fun _ ha => by cases ha
  | absorb peer m => exact hserved peer m
  | resumeDue now => exact made_answers _
  | fire now => exact made_answers _
  | _ => exact fun _ ha => by cases ha

/-- A plain message is handed to the service if it is an admitted request. -/
theorem handed?_of_plain (hplain : m.IsPlain) (hnone : e.Unobserved) (peer : Endpoint) :
    e.handed? peer m = if e.Admits peer m ∧ m.isRequest = true then some m else none := by
  have htransfers := Transfers.receive_of_plain hplain e.transfers e.now peer
  have hsubscriptions := Subscriptions.receive_of_plain hplain hnone peer
  unfold handed? Admits
  rcases e.outgoing.lets_receive peer m with hout | hout <;>
    rcases e.incoming.lets_receive e.now peer m with hin | hin <;>
      by_cases hrequest : m.isRequest = true <;>
        simp [hout, hin, htransfers, hsubscriptions, Verdict.forwarded?, hrequest, Option.filter]

/-- A plain message is served if it is an admitted request, and nothing is otherwise. -/
theorem servings_of_plain (hplain : m.IsPlain) (hnone : e.Unobserved) (peer : Endpoint) :
    e.servings (.absorb peer m) = if e.Admits peer m ∧ m.isRequest = true then
      [⟨peer, m, e.service { message := m, peer }⟩] else [] := by
  unfold servings
  simp only [handed?_of_plain hplain hnone peer]
  split <;> rfl

/-- A request that is admitted is one of the messages that are let through once. -/
theorem watched_of_admits (h : e.Admits peer m) (hrequest : m.isRequest = true) :
    Incoming.Watched m := by
  have hout := h.1
  unfold Outgoing.receive at hout
  cases htype : m.type with
  | confirmable => exact .inl ⟨htype, .inl hrequest⟩
  | nonConfirmable => exact .inr htype
  | acknowledgement | reset => simp [htype, hrequest] at hout

/-- What is served and answered between two states: the answers are all that the node comes to
say beside signals, a request is remembered from when it is served, and no request is answered
twice. -/
structure Serves (last : Instant) (servings : List Serving) (answers : List Answer)
    (e e' : Engine) : Prop where
  holds : ∀ peer m, e'.Holds peer m → e.Holds peer m ∨ Voices answers peer m
  unobserved : e'.Unobserved
  now : e'.now ≤ last
  remembers : ∀ key, e.incoming.Remembers last key → e'.incoming.Remembers last key
  fresh : ∀ s ∈ servings, ¬ e.incoming.Remembers last ⟨s.peer, s.request.id⟩
  known : ∀ s ∈ servings, e'.incoming.Remembers last ⟨s.peer, s.request.id⟩
  lifetimes : Incoming.SameLifetimes e.incoming e'.incoming
  maxExponent : e'.transfers.maxExponent = e.transfers.maxExponent
  called : e'.called = e.called ++ servings.filterMap (·.call.handler?)
  tasks : (answers.map Answer.toTask ++ e'.delayed.map Delayed.task).Subperm
    (e.delayed.map Delayed.task ++ servings.map Serving.task)

/-- An event that is not about a request of this node, does not lie behind a time, and brings no
message but a plain one. -/
def Event.Suits (last : Instant) : Event → Prop
  | .submit _ _ _ => False
  | .handle _ (.error _) => False
  | .handle _ (.ok m) | .absorb _ m => m.IsPlain
  | .repeatDue now | .sweepDue now | .resumeDue now | .fire now | .pass now => now ≤ last
  | _ => True

theorem voices_signal (answers : List Answer) (peer : Endpoint) (m : Message)
    (h : m.IsSignal) : Voices answers peer m := .inl h

/-- Where there are no answers there are signals only. -/
theorem voices_of_nil (h : Voices [] peer m) (answers : List Answer) : Voices answers peer m := by
  rcases h with hsignal | ⟨a, ha, -⟩
  · exact .inl hsignal
  · cases ha

namespace Serves

/-- Nothing is served, and the clock may go on. -/
theorem of_acts {t : Instant} (h : Acts (Voices []) last [] [] { e with now := t } e')
    (hnone : e.Unobserved) (ht : t ≤ last) : Serves last [] [] e e' where
  holds peer m hm := (h.holds peer m hm).imp_left fun hbefore => hbefore.congr rfl rfl rfl
  unobserved := h.unobserved hnone
  now := h.now.symm ▸ ht
  remembers := h.remembers
  fresh _ hs := by cases hs
  known _ hs := by cases hs
  lifetimes := h.lifetimes
  maxExponent := h.maxExponent
  called := h.called
  tasks := by
    rw [h.delayed]
    simpa using List.Subperm.refl _

/-- Whatever happens after a request was served and before the next one. -/
theorem trans_clerical {e'' : Engine} {servings : List Serving} {answers : List Answer}
    (h : Serves last servings answers e e') (h' : Clerical e' e'') :
    Serves last servings answers e e'' where
  holds peer m hm := by
    have hacts : Acts (Voices answers) last [] [] e' e'' := .of_clerical h'
    exact (hacts.holds peer m hm).elim (h.holds peer m) .inr
  unobserved := h'.unobserved h.unobserved
  now := h'.now.symm ▸ h.now
  remembers key hkey := h'.incoming.symm ▸ h.remembers key hkey
  fresh := h.fresh
  known s hs := h'.incoming.symm ▸ h.known s hs
  lifetimes := h'.incoming.symm ▸ h.lifetimes
  maxExponent := h'.transfers.symm ▸ h.maxExponent
  called := h'.called.trans h.called
  tasks := h'.delayed.symm ▸ h.tasks

/-- Handlers that behave in another way change nothing before they are called. -/
theorem under {servings : List Serving} {answers : List Answer}
    (h : Serves last servings answers e e') (service : Service) :
    Serves last servings answers e (e'.under service) :=
  { h with holds := fun peer m hm => h.holds peer m (hm.congr rfl rfl rfl) }

/-- An admitted request is served, after signals were sent, and is remembered from now on. -/
theorem of_admitted {e₁ : Engine} (hasks : Asks m) (hadmits : e.Admits peer m)
    (hnone : e.Unobserved) (hnow : e.now ≤ last)
    (hlong : last < e.incoming.exchangeLifetime ∧ last < e.incoming.nonLifetime)
    (hbefore : Acts (Voices []) last [] [] e e₁)
    (hsubscriptions : e₁.subscriptions = e.subscriptions)
    (hincoming : e₁.incoming = (e.incoming.receive e.now peer m).2.2)
    (hfits : ∀ a ∈ e.answer? peer m (e.service { message := m, peer }).reaction,
      a.Fits e.transfers.maxExponent) :
    let call := e.service { message := m, peer }
    Serves last [⟨peer, m, call⟩] (e.answer? peer m call.reaction).toList e (e₁.serve peer m) := by
  intro call
  have hcall : e₁.service { message := m, peer } = call := by rw [hbefore.service]
  have hanswer := answer?_congr hbefore.now hsubscriptions peer m call.reaction
  -- what the layers did before changes nothing in how the handler behaves
  have hserve : Acts (Voices (e.answer? peer m call.reaction).toList) last
      (e.wait? peer m call.reaction).toList call.handler?.toList e₁ (e₁.serve peer m) := by
    have hacts := Acts.serve last e₁ peer hasks fun a ha => by
      rw [hcall, hanswer] at ha
      rw [hbefore.maxExponent]
      exact hfits a ha
    simp only [hcall] at hacts
    rwa [hanswer, wait?_congr hbefore.now] at hacts
  have hall := (hbefore.mono fun p m hm => .inr (voices_of_nil hm _)).trans hserve
  obtain ⟨hnew, hremembered⟩ := Incoming.remembers_of_forward last
    (watched_of_admits hadmits hasks.1) hadmits.2 (e.incoming.lt_lifetime hlong)
  exact {
    holds := hall.holds
    unobserved := hall.unobserved hnone
    now := hall.now.symm ▸ hnow
    remembers := hall.remembers
    fresh := by
      intro s hs hold
      obtain rfl := List.mem_singleton.1 hs
      exact hnew (hold.earlier hnow)
    known := by
      intro s hs
      obtain rfl := List.mem_singleton.1 hs
      exact hserve.remembers _ (hincoming ▸ hremembered)
    lifetimes := hall.lifetimes
    maxExponent := hall.maxExponent
    called := by
      rw [hall.called]
      cases hhandler : call.handler? <;> simp [hhandler]
    tasks := by
      have hone := answer?_subperm e peer m call.reaction
      rw [hall.delayed, List.nil_append, List.map_append]
      refine (List.perm_append_comm_assoc _ _ _).subperm.trans ?_
      exact (List.subperm_append_left _).2 hone }

/-- **A plain message is received**: an admitted request is served, and nothing else is. -/
theorem absorb (peer : Endpoint) (hplain : m.IsPlain) (hnone : e.Unobserved) (hnow : e.now ≤ last)
    (hlong : e.servings (.absorb peer m) ≠ [] →
      last < e.incoming.exchangeLifetime ∧ last < e.incoming.nonLifetime)
    (hfits : ∀ a ∈ e.answered (.absorb peer m), a.Fits e.transfers.maxExponent) :
    Serves last (e.servings (.absorb peer m)) (e.answered (.absorb peer m)) e
      (e.absorb peer m) := by
  obtain ⟨e₁, hbefore, -, hsubscriptions, hincoming, habsorb⟩ :=
    absorb_of_plain hplain hnone hnow (voices_signal []) peer
  -- both lists are those of `servings_of_plain`, so that the cases are the same
  have hanswered : e.answered (.absorb peer m) = (e.servings (.absorb peer m)).flatMap fun s =>
      (e.answer? s.peer s.request s.call.reaction).toList := rfl
  rw [habsorb]
  by_cases hserved : e.Admits peer m ∧ m.isRequest = true
  · rw [servings_of_plain hplain hnone, if_pos hserved, List.flatMap_singleton] at hanswered
    rw [servings_of_plain hplain hnone, if_pos hserved] at hlong ⊢
    rw [hanswered] at hfits ⊢
    rw [if_pos hserved.1, accept_eq, if_pos hserved.2]
    exact of_admitted ⟨hserved.2, hplain⟩ hserved.1 hnone hnow (hlong (List.cons_ne_nil _ _))
      hbefore hsubscriptions (hincoming hserved.1) fun a ha => hfits a (Option.mem_toList.2 ha)
  · rw [servings_of_plain hplain hnone, if_neg hserved, List.flatMap_nil] at hanswered
    rw [servings_of_plain hplain hnone, if_neg hserved, hanswered]
    refine of_acts (t := e.now) ?_ hnone hnow
    split
    · next hadmits =>
      refine hbefore.trans (Acts.accept_of_not_request ?_ e₁ peer)
      exact fun hrequest => hserved ⟨hadmits, hrequest⟩
    · exact hbefore

/-- The handlers whose waits are over go on, after nothing has happened but that the clock went
on and signals were sent. -/
theorem resume {t now : Instant} {e₁ : Engine}
    (hbefore : Acts (Voices []) last [] [] { e with now := t } e₁) (hnone : e.Unobserved)
    (ht : t ≤ last) (hasks : ∀ d ∈ e.delayed, Asks d.request)
    (hfits : ∀ a ∈ awakened now e₁, a.Fits e.transfers.maxExponent) :
    Serves last [] (awakened now e₁) e (resumeDue now e₁) := by
  let due := e₁.delayed.filter (·.due ≤ now)
  let left := e₁.delayed.filter (now < ·.due)
  have hdelayed : e₁.delayed = e.delayed := hbefore.delayed.trans (List.append_nil _)
  have hparts : (due ++ left).Perm e.delayed := by
    have hleft : left = e₁.delayed.filter fun d => !decide (d.due ≤ now) := by
      refine List.filter_congr fun d _ => ?_
      rw [← decide_not]
      exact decide_eq_decide.2 Nat.not_le.symm
    rw [hleft, ← hdelayed]
    exact List.filter_append_perm _ _
  -- those that are due are taken off the list first, and may be put on it again
  obtain ⟨waits, hresumed, htasks⟩ := Acts.resume last due
    (fun d hd => hasks d (hdelayed ▸ (List.mem_filter.1 hd).1)) { e₁ with delayed := left }
    fun a ha => hbefore.maxExponent.symm ▸ hfits a ha
  have hacts : Acts (Voices (awakened now e₁)) last waits []
      { e₁ with delayed := left } (resumeDue now e₁) := hresumed
  exact {
    holds := by
      intro p m hm
      rcases hacts.holds p m hm with hold | hvoiced
      · rcases hbefore.holds p m (hold.congr rfl rfl rfl) with hfirst | hsignal
        · exact .inl (hfirst.congr rfl rfl rfl)
        · exact .inr (voices_of_nil hsignal _)
      · exact .inr hvoiced
    unobserved := hacts.unobserved (hbefore.unobserved hnone)
    now := by
      rw [hacts.now]
      exact hbefore.now.symm ▸ ht
    remembers := fun key hkey => hacts.remembers key (hbefore.remembers key hkey)
    fresh := fun _ hs => by cases hs
    known := fun _ hs => by cases hs
    lifetimes := ⟨hacts.lifetimes.1.trans hbefore.lifetimes.1,
      hacts.lifetimes.2.trans hbefore.lifetimes.2⟩
    maxExponent := hacts.maxExponent.trans hbefore.maxExponent
    called := by
      rw [hacts.called]
      exact (List.append_nil _).trans hbefore.called
    tasks := by
      have hwhole : ((awakened now e₁).map Answer.toTask ++ waits.map Delayed.task ++
          left.map Delayed.task).Subperm (due.map Delayed.task ++ left.map Delayed.task) :=
        (List.subperm_append_right _).2 htasks
      have hall : (due.map Delayed.task ++ left.map Delayed.task).Perm
          (e.delayed.map Delayed.task) := by
        rw [← List.map_append]
        exact hparts.map _
      replace hwhole := hwhole.trans hall.subperm
      rw [hacts.delayed, List.map_append, List.map_nil, List.append_nil]
      refine (List.Perm.subperm ?_).trans hwhole
      rw [List.append_assoc]
      exact List.perm_append_comm.append_left _ }

/-- The clock has gone on, failed exchanges are concluded and what is due is sent. -/
theorem before {now : Instant} (hnow : now ≤ last) (e : Engine) :
    Acts (Voices []) last [] [] { e with now } (beforeResuming now e) := by
  let events := (e.outgoing.fire e.outboxOpen now).1.events
  let repeated := repeatDue now { e with now }
  have hrepeated : Acts (Voices []) last [] [] { e with now } repeated := Acts.repeatDue now _
  have hconcluded : Acts (Voices []) last [] [] repeated (repeated.concludeAll events) :=
    .of_clerical (.concludeAll events repeated)
  exact (hrepeated.trans hconcluded).trans (.sweepDue (voices_signal []) hnow _)

/-- **Everything that may happen to a node without observers**, if it sends no request of its
own and gets plain messages only.  What it serves must be remembered to the last moment. -/
theorem step {event : Event} (hsuits : event.Suits last) (hnone : e.Unobserved)
    (hnow : e.now ≤ last)
    (hlong : e.servings event ≠ [] →
      last < e.incoming.exchangeLifetime ∧ last < e.incoming.nonLifetime)
    (hasks : ∀ d ∈ e.delayed, Asks d.request)
    (hfits : ∀ a ∈ e.answered event, a.Fits e.transfers.maxExponent) :
    Serves last (e.servings event) (e.answered event) e (e.step event) := by
  -- but for what is received or resumed, an event serves and answers nothing
  have hquiet {e' : Engine} (h : Acts (Voices []) last [] [] e e') : Serves last [] [] e e' :=
    of_acts (t := e.now) h hnone hnow
  cases event with
  | submit => exact absurd hsuits id
  | cancel key => exact hquiet (.of_clerical (.cancel e key))
  | handle peer decoded =>
    cases decoded with
    | error fault => exact absurd hsuits id
    | ok m =>
      have habsorbed := absorb peer hsuits hnone hnow hlong hfits
      show Serves last _ _ e (e.receive peer m)
      rw [receive_eq_absorb]
      exact (habsorbed.trans_clerical (.concludeAll _ _)).trans_clerical (.settle _)
  | absorb peer m => exact absorb peer hsuits hnone hnow hlong hfits
  | conclude event => exact hquiet (.of_clerical (.conclude e event))
  | repeatDue now => exact hquiet (.repeatDue now e)
  | sweepDue now => exact hquiet (.sweepDue (voices_signal []) hsuits e)
  | resumeDue now => exact resume (t := e.now) (.refl e) hnone hnow hasks hfits
  | expire key number => exact hquiet (.of_clerical (.expire e key number))
  | settle => exact hquiet (.of_clerical (.settle e))
  | announce id event => exact hquiet (.announce hnone id event)
  | setState id state => exact hquiet (.setState e id state)
  | closeOutbox =>
    exact hquiet (.of_same rfl rfl rfl (fun hnone => hnone) rfl rfl rfl rfl)
  | serve service => exact (hquiet (.refl e)).under service
  | fire now =>
    have hresumed := resume (before hsuits e) hnone hsuits hasks hfits
    show Serves last _ _ e (fire now e)
    rw [fire_eq]
    exact (hresumed.trans_clerical (.expireDue now _)).trans_clerical (.settle _)
  | pass now => exact of_acts (t := now) (.refl _) hnone hsuits

end Serves

/-! ## Nodes that serve nothing -/

/-- An event brings neither a message nor a request of this node. -/
def Event.IsInner : Event → Prop
  | .submit _ _ _ | .handle _ _ | .absorb _ _ => False
  | _ => True

/-- A message arrives, and the exchange it ends may be concluded another time. -/
def Event.Brings (peer : Endpoint) (m : Message) (event : Event) : Prop :=
  event = .handle peer (.ok m) ∨ event = .absorb peer m

theorem servings_of_inner {event : Event} (h : event.IsInner) : e.servings event = [] := by
  cases event with
  | submit | handle | absorb => exact absurd h id
  | _ => rfl

/-- A plain message that arrives is served if it is a request, and nothing else is. -/
theorem serves_brought {event : Event} (hplain : m.IsPlain) (hnone : e.Unobserved)
    (hevent : event.Brings peer m) : (∀ last, event.Suits last) ∧
      ∀ s ∈ e.servings event, s.peer = peer ∧ s.request = m ∧ m.isRequest = true := by
  have hserved : ∀ s ∈ e.servings (.absorb peer m),
      s.peer = peer ∧ s.request = m ∧ m.isRequest = true := by
    intro s hs
    rw [servings_of_plain hplain hnone peer] at hs
    split at hs
    · next hadmitted =>
      obtain rfl := List.mem_singleton.1 hs
      exact ⟨rfl, rfl, hadmitted.2⟩
    · cases hs
  rcases hevent with rfl | rfl
  · exact ⟨fun _ => hplain, hserved⟩
  · exact ⟨fun _ => hplain, hserved⟩

/-- Every event is over at some time. -/
theorem Event.exists_suits {event : Event} (h : event.IsInner) (t : Instant) :
    ∃ last, event.Suits last ∧ t ≤ last := by
  cases event with
  | submit | handle | absorb => exact absurd h id
  | repeatDue now | sweepDue now | resumeDue now | fire now | pass now =>
    exact ⟨max t now, Nat.le_max_right t now, Nat.le_max_left t now⟩
  | _ => exact ⟨t, trivial, Nat.le_refl t⟩

theorem answered_eq_nil {event : Event} (hidle : e.delayed = [])
    (hservings : e.servings event = []) : e.answered event = [] := by
  have hasleep (now : Instant) {e : Engine} (hidle : e.delayed = []) : awakened now e = [] := by
    simp [awakened, hidle, answers]
  cases event with
  | handle peer decoded =>
    cases decoded with
    | ok m =>
      have hservings' : e.servings (.absorb peer m) = [] := hservings
      simp [answered, hservings']
    | error fault => rfl
  | absorb peer m => simp [answered, hservings]
  | resumeDue now => exact hasleep now hidle
  | fire now =>
    refine hasleep now ?_
    rw [(Serves.before (Nat.le_refl now) e).delayed, List.append_nil]
    exact hidle
  | _ => rfl

/-- A node that serves no request and sends none has nothing to say but signals. -/
theorem idle_step {event : Event} {last : Instant} (hsuits : event.Suits last)
    (hnow : e.now ≤ last) (hnone : e.Unobserved) (hidle : e.delayed = [])
    (hservings : e.servings event = []) :
    (e.step event).Unobserved ∧ (e.step event).delayed = [] ∧
      ∀ p m, (e.step event).Holds p m → e.Holds p m ∨ m.IsSignal := by
  have hanswered := answered_eq_nil hidle hservings
  have hserves : Serves last (e.servings event) (e.answered event) e (e.step event) :=
    Serves.step hsuits hnone hnow (fun h => absurd hservings h)
      (fun d hd => by rw [hidle] at hd; cases hd) (fun a ha => by rw [hanswered] at ha; cases ha)
  rw [hservings, hanswered] at hserves
  refine ⟨hserves.unobserved, ?_, fun p m hm => (hserves.holds p m hm).imp_right ?_⟩
  · have htasks := hserves.tasks
    simpa [hidle] using htasks
  · rintro (hsignal | ⟨a, ha, -⟩)
    · exact hsignal
    · cases ha

end Engine

end Coap
