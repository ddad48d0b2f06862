/-
# One outcome for each exchange

An exchange is open from the time its message is sent until it is answered, cancelled or given
up.  `Fate` says what that means for a history in which its ID is not given away again: first
the exchange is ongoing, which shows in nothing but copies of its message; then one event closes
it; then nothing more comes of it.
-/
import Coap.Proofs.Exchange.Opened

namespace Coap.Outgoing

variable {s : Outgoing} {t : Instant} {key : MessageKey} {x x' : OpenExchange} {event : Event}
  {history before after : History}

/-! ## What a history shows of an exchange -/

/-- The outcomes under a key that are made known in a history. -/
def publications (s : Outgoing) (key : MessageKey) : History → List ExchangeEvent
  | [] => []
  | (t, event) :: rest => s.publishedFor t key event ++ publications (s.step t event) key rest

/-- The messages with the ID of a key that are repeated to its peer in a history. -/
def repetitions (s : Outgoing) (key : MessageKey) : History → List Message
  | [] => []
  | (t, event) :: rest => s.repeatedFor t key event ++ repetitions (s.step t event) key rest

/-- The ID of a key is given to no confirmable message in the history. -/
def NoneOpens (s : Outgoing) (key : MessageKey) : History → Prop
  | [] => True
  | (t, event) :: rest => ¬ s.Opens t key event ∧ NoneOpens (s.step t event) key rest

/-- The exchange is open all the time: it is not ended from outside, nothing is made known of it,
and only its own message is repeated, not too often. -/
structure Ongoing (s : Outgoing) (key : MessageKey) (x : OpenExchange) (history : History) :
    Prop where
  isOpen : ∃ x', (s.run history).exchanges.get? key = some x' ∧ x'.message = x.message ∧
    x'.repeated = x.repeated + (s.repetitions key history).length
  unended : ∀ e ∈ history, ¬ Ends key x.message.token e.2
  unpublished : s.publications key history = []
  copies : ∀ m ∈ s.repetitions key history, m = x.message
  bounded : x.repeated + (s.repetitions key history).length ≤ s.policy.maxRetransmit

/-- The event closes the exchange, whose message has been repeated `n` times, and this is made
known. -/
inductive Closes (policy : Transmission) (key : MessageKey) (x : OpenExchange) (n : Nat) :
    Event → List ExchangeEvent → Prop
  | acknowledged {reply : Message} (hreply : Replies key .acknowledgement reply) :
      Closes policy key x n (.receive key.peer reply)
        [⟨key.peer, x.message.token, key.id, .acknowledged⟩]
  | reset {reply : Message} (hreply : Replies key .reset reply) :
      Closes policy key x n (.receive key.peer reply)
        [⟨key.peer, x.message.token, key.id, .reset⟩]
  | exhausted {chosen : MessageKey → Bool} (hall : x.repeated + n = policy.maxRetransmit) :
      Closes policy key x n (.timers chosen)
        [⟨key.peer, x.message.token, key.id, .timedOut (policy.maxRetransmit + 1)⟩]
  | cancelled : Closes policy key x n (.cancel key.peer x.message.token) []

/-- Nothing comes of the key: there is no exchange, nothing is made known and nothing repeated. -/
structure Silent (s : Outgoing) (key : MessageKey) (history : History) : Prop where
  isClosed : (s.run history).exchanges.get? key = none
  unpublished : s.publications key history = []
  unrepeated : s.repetitions key history = []

/-- What has become of an open exchange: it is ongoing, or it was until one event closed it, and
nothing has come of it since. -/
inductive Fate (s : Outgoing) (key : MessageKey) (x : OpenExchange) : History → Prop
  | ongoing {history : History} (h : Ongoing s key x history) : Fate s key x history
  | closed {before after : History} {t : Instant} {event : Event}
      (hbefore : Ongoing s key x before)
      (hcloses : Closes s.policy key x (s.repetitions key before).length event
        ((s.run before).publishedFor t key event))
      (hunrepeated : (s.run before).repeatedFor t key event = [])
      (hafter : Silent ((s.run before).step t event) key after) :
      Fate s key x (before ++ (t, event) :: after)

/-- An exchange that is not opened stays silent. -/
theorem silent_run (hs : s.Sound) (hx : s.exchanges.get? key = none)
    (hnone : s.NoneOpens key history) : s.Silent key history := by
  induction history generalizing s with
  | nil => exact ⟨hx, rfl, rfl⟩
  | cons e rest ih =>
    obtain ⟨t, event⟩ := e
    obtain ⟨hnot, hrest⟩ := hnone
    obtain ⟨hpublished, hrepeated, hx'⟩ := silent_step hs hx hnot
    obtain ⟨hclosed, hpublications, hrepetitions⟩ := ih (sound_step hs) hx' hrest
    refine ⟨hclosed, ?_, ?_⟩
    · rw [publications, hpublished, hpublications, List.append_nil]
    · rw [repetitions, hrepeated, hrepetitions, List.append_nil]

/-- An event that the exchange survives. -/
structure Survives (s : Outgoing) (t : Instant) (key : MessageKey) (x : OpenExchange)
    (event : Event) (x' : OpenExchange) : Prop where
  unended : ¬ Ends key x.message.token event
  unpublished : s.publishedFor t key event = []
  copies : ∀ m ∈ s.repeatedFor t key event, m = x.message
  message : x'.message = x.message
  count : x'.repeated = x.repeated + (s.repeatedFor t key event).length

theorem Ongoing.cons (h : Ongoing (s.step t event) key x' history)
    (hfirst : Survives s t key x event x') : Ongoing s key x ((t, event) :: history) := by
  obtain ⟨⟨x'', hx'', hmessage, hcount⟩, hunended, hunpublished, hcopies, hbounded⟩ := h
  rw [hfirst.message] at hmessage hunended hcopies
  rw [policy_step] at hbounded
  have hlength : x.repeated + (s.repetitions key ((t, event) :: history)).length =
      x'.repeated + ((s.step t event).repetitions key history).length := by
    rw [repetitions, List.length_append, hfirst.count]
    omega
  refine ⟨⟨x'', hx'', hmessage, ?_⟩, ?_, ?_, ?_, ?_⟩
  · rw [hcount, hlength]
  · exact List.forall_mem_cons.mpr ⟨hfirst.unended, hunended⟩
  · rw [publications, hfirst.unpublished, hunpublished, List.append_nil]
  · exact List.forall_mem_append.mpr ⟨hfirst.copies, hcopies⟩
  · rw [hlength]
    exact hbounded

theorem Closes.earlier {policy : Transmission} {n k : Nat} {events : List ExchangeEvent}
    (h : Closes policy key x' n event events) (hmessage : x'.message = x.message)
    (hcount : x'.repeated = x.repeated + k) : Closes policy key x (k + n) event events := by
  cases h with
  | acknowledged hreply => exact hmessage ▸ .acknowledged hreply
  | reset hreply => exact hmessage ▸ .reset hreply
  | exhausted hall => exact hmessage ▸ .exhausted (by omega)
  | cancelled => exact hmessage ▸ .cancelled

theorem Fate.cons (h : Fate (s.step t event) key x' history)
    (hfirst : Survives s t key x event x') : Fate s key x ((t, event) :: history) := by
  cases h with
  | ongoing h => exact .ongoing (h.cons hfirst)
  | closed hbefore hcloses hunrepeated hafter =>
    refine .closed (hbefore.cons hfirst) ?_ hunrepeated hafter
    rw [repetitions, List.length_append]
    rw [policy_step] at hcloses
    exact hcloses.earlier hfirst.message hfirst.count

theorem ongoing_nil (hs : s.Sound) (hx : s.exchanges.get? key = some x) : s.Ongoing key x [] :=
  ⟨⟨x, hx, rfl, rfl⟩, by simp, rfl, by simp [repetitions], hs.repeated key x hx⟩

/-- **What becomes of an open exchange.** -/
theorem fate_run (hs : s.Sound) (hx : s.exchanges.get? key = some x)
    (hnone : s.NoneOpens key history) : Fate s key x history := by
  induction history generalizing s x with
  | nil => exact .ongoing (ongoing_nil hs hx)
  | cons e rest ih =>
    obtain ⟨t, event⟩ := e
    obtain ⟨hnot, hrest⟩ := hnone
    have hturn := turn_step hs hx hnot
    generalize hpublished : s.publishedFor t key event = events at hturn
    generalize hrepeated : s.repeatedFor t key event = sent at hturn
    generalize hafter : (s.step t event).exchanges.get? key = x'? at hturn
    -- Either the exchange survives the first event, or this is the one that closes it.
    have hclosed (hcloses : Closes s.policy key x 0 event events) (hnothing : sent = [])
        (hgone : x'? = none) : Fate s key x ((t, event) :: rest) := by
      subst hpublished hrepeated hafter
      exact .closed (ongoing_nil hs hx) hcloses hnothing (silent_run (sound_step hs) hgone hrest)
    cases hturn with
    | rests hends =>
      have hnext := ih (sound_step hs) hafter hrest
      exact hnext.cons ⟨hends, hpublished, by simp [hrepeated], rfl, by simp [hrepeated]⟩
    | @repeats chosen =>
      have hnext := ih (sound_step hs) hafter hrest
      have hcount : (again x t).repeated =
          x.repeated + (s.repeatedFor t key (.timers chosen)).length := by
        rw [hrepeated]
        rfl
      exact hnext.cons ⟨by simp [Ends], hpublished, by simp [hrepeated], rfl, hcount⟩
    | acknowledged hreply => exact hclosed (.acknowledged hreply) rfl rfl
    | reset hreply => exact hclosed (.reset hreply) rfl rfl
    | timedOut _ hge =>
      exact hclosed (.exhausted (Nat.le_antisymm (hs.repeated key x hx) hge)) rfl rfl
    | cancelled => exact hclosed .cancelled rfl rfl

/-! ## How many exchanges are open -/

/-- No event of the history opens an exchange that is still open. -/
def FreshIds (s : Outgoing) : History → Prop
  | [] => True
  | (t, event) :: rest =>
    (∀ key ∈ s.opened? t event, s.exchanges.get? key = none) ∧ FreshIds (s.step t event) rest

instance decidableFreshIds : (s : Outgoing) → (history : History) → Decidable (s.FreshIds history)
  | _, [] => .isTrue trivial
  | s, (t, event) :: rest =>
    have := decidableFreshIds (s.step t event) rest
    inferInstanceAs (Decidable (_ ∧ _))

/-- The number of exchanges that an event closes: those with the cancelled token, and otherwise
those of which it makes the outcome known. -/
def closings (s : Outgoing) (t : Instant) : Event → Nat
  | .cancel peer token =>
    (s.exchanges.entries.filter fun e => e.1.peer == peer && e.2.message.token == token).length
  | event => (s.published t event).length

/-- The number of exchanges opened in a history. -/
def openedIn (s : Outgoing) : History → Nat
  | [] => 0
  | (t, event) :: rest => (s.opened? t event).toList.length + openedIn (s.step t event) rest

/-- The number of exchanges closed in a history. -/
def closedIn (s : Outgoing) : History → Nat
  | [] => 0
  | (t, event) :: rest => s.closings t event + closedIn (s.step t event) rest

/-- IDs that are fresh in two histories are so in both together. -/
theorem freshIds_append {h h' : History} :
    s.FreshIds (h ++ h') ↔ s.FreshIds h ∧ (s.run h).FreshIds h' := by
  induction h generalizing s with
  | nil => exact (iff_of_eq (true_and _)).symm
  | cons e rest ih =>
    rw [List.cons_append, FreshIds, FreshIds, ih, and_assoc]
    rfl

theorem sound_run (hs : s.Sound) : (s.run history).Sound := by
  induction history generalizing s with
  | nil => exact hs
  | cons e rest ih => exact ih (sound_step hs)

/-- An exchange whose wait has ended goes on or fails. -/
theorem openExchanges_timers (chosen : MessageKey → Bool) :
    (s.step t (.timers chosen)).openExchanges + s.closings t (.timers chosen) =
      s.openExchanges := by
  have hlength (l : List (MessageKey × OpenExchange)) :
      (l.filterMap fun e => ((if chosen e.1 ∧ e.2.due ≤ t then e.2.renew? s.policy true t
          else some e.2).map (e.1, ·))).length +
        ((l.filter fun e => chosen e.1 ∧ e.2.due ≤ t).filterMap
          fun e => e.2.timeout? s.policy e.1).length = l.length := by
    induction l with
    | nil => rfl
    | cons e rest ih =>
      by_cases hdue : chosen e.1 ∧ e.2.due ≤ t
      · by_cases hlt : e.2.repeated < s.policy.maxRetransmit
        · simp only [List.filterMap_cons, List.filter_cons, hdue, hlt, OpenExchange.renew?,
            OpenExchange.timeout?, and_self, if_true, decide_true, Option.map_some,
            List.length_cons] at ih ⊢
          omega
        · simp only [List.filterMap_cons, List.filter_cons, hdue, hlt, OpenExchange.renew?,
            OpenExchange.timeout?, and_self, false_and, if_true, if_false, decide_true,
            Option.map_none, List.length_cons] at ih ⊢
          omega
      · simp only [List.filterMap_cons, List.filter_cons, hdue, if_false, decide_false,
          Bool.false_eq_true, Option.map_some, List.length_cons] at ih ⊢
        omega
  exact hlength s.exchanges.entries

/-- An exchange more is open for each that is opened, and one less for each that is closed. -/
theorem openExchanges_step (hfresh : ∀ key ∈ s.opened? t event, s.exchanges.get? key = none) :
    (s.step t event).openExchanges + s.closings t event =
      s.openExchanges + (s.opened? t event).toList.length := by
  cases hopened : s.opened? t event with
  | some key =>
    obtain ⟨m, rfl, -, -, -, hstep⟩ := step_of_opens hopened
    rw [hstep, openExchanges, Table.size_insert _ (hfresh key hopened)]
    rfl
  | none =>
    cases event with
    | send peer m =>
      have hcases := send_cases s t peer m
      rw [opened?] at hopened
      rw [step]
      generalize (s.send t peer m).1 = result at hcases hopened
      generalize (s.send t peer m).2 = s' at hcases
      cases hcases with
      | opened htype => simp [htype] at hopened
      | _ => rfl
    | receive peer m =>
      have hcases := receive_cases s peer m
      rw [show s.closings t (.receive peer m) = (s.published t (.receive peer m)).length from rfl,
        published, step]
      generalize (s.receive peer m).2.1 = event? at hcases
      generalize (s.receive peer m).2.2 = s' at hcases
      cases hcases with
      | ignored => rfl
      | closed hx => exact Table.size_erase _ hx
    | cancel peer token =>
      -- What the cancellation leaves and what it closes are complementary.
      have hsize := s.exchanges.size_filter_add
        fun key x => !(key.peer == peer && x.message.token == token)
      rw [closings]
      simpa [step, cancel, openExchanges] using hsize
    | timers chosen => exact openExchanges_timers chosen
    | purge => rw [step, openExchanges, exchanges_purgeIds]; rfl

theorem openExchanges_run (hfresh : s.FreshIds history) :
    (s.run history).openExchanges + s.closedIn history =
      s.openExchanges + s.openedIn history := by
  induction history generalizing s with
  | nil => rfl
  | cons e rest ih =>
    obtain ⟨t, event⟩ := e
    obtain ⟨hfirst, hrest⟩ := hfresh
    have hstep := openExchanges_step hfirst
    have hrun := ih hrest
    rw [run, closedIn, openedIn]
    omega

/-! ## One outcome -/

/-- **One outcome for each exchange.**  In a history in which no message gets the ID of an open
exchange with its peer, a confirmable message opens one exchange, under the ID it gets.  Until the
ID is given away again, `Fate` says what becomes of it.  Acknowledgements and resets with a request
in them, or without an open exchange, change nothing.  The open exchanges are those that were
opened and not closed. -/
theorem one_outcome (policy : Transmission) (ids : MessageIdPool) (shares : Draws Rat)
    (history : History) (hfresh : (start policy ids shares).FreshIds history) :
    (∀ before t peer m after m', history = before ++ (t, .send peer m) :: after →
      let s := (start policy ids shares).run before
      let key : MessageKey := ⟨peer, m'.id⟩
      let s' := s.step t (.send peer m)
      m.type = .confirmable → (s.send t peer m).1 = .ok m' →
      m' = { m with id := m'.id } ∧ s.exchanges.get? key = none ∧
        ∃ x, s'.exchanges = s.exchanges.insert key x ∧ x.message = m' ∧ x.repeated = 0 ∧
          ∀ mid rest, after = mid ++ rest → s'.NoneOpens key mid → s'.Fate key x mid) ∧
    (∀ (s : Outgoing) (peer : Endpoint) (m : Message), m.type = .acknowledgement ∨ m.type = .reset →
      m.isRequest ∨ s.exchanges.get? ⟨peer, m.id⟩ = none → (s.receive peer m).2 = (none, s)) ∧
    ((start policy ids shares).run history).openExchanges +
        (start policy ids shares).closedIn history =
      (start policy ids shares).openedIn history := by
  refine ⟨?_, ?_, ?_⟩
  · rintro before t peer m after m' rfl s key s' htype hsent
    obtain ⟨-, hfirst, -⟩ := freshIds_append.mp hfresh
    have hopens : s.Opens t key (.send peer m) := opens_send_iff.mpr ⟨htype, m', hsent, rfl⟩
    obtain ⟨_, hevent, -, -, hnumbered, hstep⟩ := step_of_opens hopens
    cases hevent
    have hm' : m' = { m with id := m'.id } := Except.ok.inj (hsent.symm.trans hnumbered)
    have hexchanges : s'.exchanges = s.exchanges.insert key (s.newExchange t m') := by
      rw [hm']
      exact congrArg exchanges hstep
    refine ⟨hm', hfirst key hopens, s.newExchange t m', hexchanges, rfl, rfl, ?_⟩
    intro mid rest _ hnone
    refine fate_run (sound_step (sound_run (sound_start policy ids shares))) ?_ hnone
    rw [show (s.step t (.send peer m)).exchanges = _ from hexchanges, Table.get?_insert_self]
  · intro s peer m _ hunanswered
    have hcases := receive_cases s peer m
    rw [← Prod.eta (s.receive peer m).2]
    generalize (s.receive peer m).2.1 = event? at hcases
    generalize (s.receive peer m).2.2 = s' at hcases
    cases hcases with
    | ignored => rfl
    | closed hx houtcome =>
      rcases hunanswered with hrequest | hnone
      · rcases houtcome with ⟨-, hreply⟩ | ⟨-, hreply⟩ <;> exact absurd hrequest hreply.2.2
      · rw [hnone] at hx
        cases hx
  · have hcount := openExchanges_run hfresh
    rwa [show (start policy ids shares).openExchanges = 0 from rfl, Nat.zero_add] at hcount

/-- A request that is repeated once and then acknowledged twice has one outcome. -/
theorem one_outcome_of_acknowledged_twice :
    let ids : MessageIdPool := ⟨Transmission.standard.exchangeLifetime, .constant 1000, .empty⟩
    let s := start .standard ids (.constant 0)
    let key : MessageKey := ⟨⟨1⟩, 1000⟩
    let request : Message := { type := .confirmable, code := .request .get, id := 0 }
    let sent := s.step 0 (.send key.peer request)
    let after : History := [(Duration.ofSeconds 2, .timers fun _ => true),
      (Duration.ofSeconds 3, .receive key.peer (.emptyAck key.id)),
      (Duration.ofSeconds 4, .receive key.peer (.emptyAck key.id))]
    s.FreshIds ((0, .send key.peer request) :: after) ∧
      (∃ x, sent.exchanges.get? key = some x ∧ sent.Fate key x after) ∧
      sent.repetitions key after = [{ request with id := key.id }] ∧
      sent.publications key after = [⟨key.peer, request.token, key.id, .acknowledged⟩] ∧
      (sent.run after).openExchanges = 0 := by
  intro ids s key request sent after
  have hfresh : s.FreshIds ((0, .send key.peer request) :: after) := by decide +kernel
  have hsent : (s.send 0 key.peer request).1 = .ok { request with id := key.id } := by
    decide +kernel
  obtain ⟨hopened, -, -⟩ := one_outcome .standard _ (.constant 0) _ hfresh
  obtain ⟨-, -, x, hexchanges, -, -, hfate⟩ := hopened [] 0 key.peer request after _ rfl rfl hsent
  have hnone : sent.NoneOpens key after := by simp [after, NoneOpens, Opens, opened?]
  refine ⟨hfresh, ⟨x, ?_, hfate after [] (List.append_nil _).symm hnone⟩, ?_, ?_, ?_⟩
  · exact (congrArg (fun table => table.get? key) hexchanges).trans (Table.get?_insert_self ..)
  · decide +kernel
  · decide +kernel
  · decide +kernel

end Coap.Outgoing
