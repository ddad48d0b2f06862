/-
# Runs of the layer that sends messages

What happens at this layer, one thing after the other: messages go out, messages come in,
exchanges are cancelled, timers go off, in any selection and order, and the message IDs are
looked through.  Each exchange has a key, and what an event does to it does not depend on the
other ones: `Turn` says what can become of an open exchange when something happens, and
`turn_step` that nothing else does.
-/
import Coap.Exchange.Outgoing
import Mathlib.Data.List.Basic

namespace Coap.Outgoing

/-! ## Histories -/

/-- What happens at this layer. -/
inductive Event
  | send (peer : Endpoint) (m : Message)
  | receive (peer : Endpoint) (m : Message)
  | cancel (peer : Endpoint) (token : Token)
  /-- The timers of the chosen exchanges go off, as far as their waits have ended. -/
  | timers (chosen : MessageKey → Bool)
  | purge

/-- What happened when. -/
abbrev History := List (Instant × Event)

/-- The state after an event, as long as there is an outbox. -/
def step (s : Outgoing) (now : Instant) : Event → Outgoing
  | .send peer m => (s.send now peer m).2
  | .receive peer m => (s.receive peer m).2.2
  | .cancel peer token => s.cancel peer token
  | .timers chosen => (s.fireChosen chosen true now).2
  | .purge => s.purgeIds now

/-- The state after a history. -/
def run (s : Outgoing) : History → Outgoing
  | [] => s
  | (t, event) :: rest => run (s.step t event) rest

/-- The messages that are repeated at an event. -/
def repeated (s : Outgoing) (now : Instant) : Event → List (Endpoint × Message)
  | .timers chosen => (s.fireChosen chosen true now).1.sent
  | _ => []

/-- The outcomes of exchanges that an event makes known. -/
def published (s : Outgoing) (now : Instant) : Event → List ExchangeEvent
  | .receive peer m => (s.receive peer m).2.1.toList
  | .timers chosen => (s.fireChosen chosen true now).1.events
  | _ => []

/-- All that this layer does by itself at a time is two events. -/
theorem fire_eq (s : Outgoing) (now : Instant) :
    s.fire true now =
      (⟨(s.step now .purge).repeated now (.timers fun _ => true),
        (s.step now .purge).published now (.timers fun _ => true)⟩,
      (s.step now .purge).step now (.timers fun _ => true)) := rfl

variable {s : Outgoing} {t : Instant} {key : MessageKey} {x : OpenExchange} {event : Event}
  {peer : Endpoint} {m : Message}

/-! ## Messages that go out -/

/-- The exchange that a confirmable message opens, with its first wait. -/
def newExchange (s : Outgoing) (t : Instant) (m : Message) : OpenExchange where
  message := m
  repeated := 0
  wait := firstWait s.policy s.shares.next.1
  due := (t + firstWait s.policy s.shares.next.1).tick

/-- What becomes of a message that is to be sent. -/
inductive Sending (s : Outgoing) (t : Instant) (peer : Endpoint) (m : Message) :
    Except SendFailure Message → Outgoing → Prop
  | plain (htype : m.type = .acknowledgement ∨ m.type = .reset) : Sending s t peer m (.ok m) s
  | refused {e : Exhausted} {ids : MessageIdPool} (hissue : s.ids.issue t peer = (.error e, ids)) :
      Sending s t peer m (.error (.noMessageId e)) { s with ids }
  | numbered {id : MessageId} {ids : MessageIdPool} (htype : m.type = .nonConfirmable)
      (hissue : s.ids.issue t peer = (.ok id, ids)) :
      Sending s t peer m (.ok { m with id }) { s with ids }
  | opened {id : MessageId} {ids : MessageIdPool} (htype : m.type = .confirmable)
      (hissue : s.ids.issue t peer = (.ok id, ids)) :
      Sending s t peer m (.ok { m with id })
        { s with
          ids
          shares := s.shares.next.2
          exchanges := s.exchanges.insert ⟨peer, id⟩ (s.newExchange t { m with id }) }

/-- A message goes out as it is or with an ID, and opens an exchange if it has to be acknowledged.
-/
theorem send_cases (s : Outgoing) (t : Instant) (peer : Endpoint) (m : Message) :
    Sending s t peer m (s.send t peer m).1 (s.send t peer m).2 := by
  obtain ⟨type, code, id₀, token, options, payload⟩ := m
  rcases hissue : s.ids.issue t peer with ⟨e | id, ids⟩
  · cases type with
    | acknowledgement => exact .plain (.inl rfl)
    | reset => exact .plain (.inr rfl)
    | nonConfirmable => simpa only [send, hissue] using .refused hissue
    | confirmable => simpa only [send, hissue] using .refused hissue
  · cases type with
    | acknowledgement => exact .plain (.inl rfl)
    | reset => exact .plain (.inr rfl)
    | nonConfirmable => simpa only [send, hissue] using .numbered rfl hissue
    | confirmable => simpa only [send, hissue] using .opened rfl hissue

/-- The key of the exchange that an event opens: a confirmable message got an ID. -/
def opened? (s : Outgoing) (t : Instant) : Event → Option MessageKey
  | .send peer m =>
    match m.type, (s.send t peer m).1 with
    | .confirmable, .ok m' => some ⟨peer, m'.id⟩
    | _, _ => none
  | _ => none

/-- A confirmable message gets the ID of this key, and opens its exchange. -/
def Opens (s : Outgoing) (t : Instant) (key : MessageKey) (event : Event) : Prop :=
  s.opened? t event = some key

/-- An exchange is opened by a confirmable message, under the ID that it gets. -/
theorem opens_send_iff : s.Opens t key (.send peer m) ↔
    m.type = .confirmable ∧ ∃ m', (s.send t peer m).1 = .ok m' ∧ ⟨peer, m'.id⟩ = key := by
  rw [Opens, opened?]
  cases m.type <;> cases (s.send t peer m).1 <;> simp

/-- A confirmable message opens an exchange under the ID that is issued for its peer. -/
theorem opens_of_issued {id : MessageId} (htype : m.type = .confirmable)
    (h : (s.ids.issue t peer).1 = .ok id) : s.Opens t ⟨peer, id⟩ (.send peer m) := by
  have hcases := send_cases s t peer m
  rw [opens_send_iff]
  generalize (s.send t peer m).1 = result at hcases
  generalize (s.send t peer m).2 = s' at hcases
  cases hcases with
  | opened _ hissue =>
    rw [hissue] at h
    cases h
    exact ⟨htype, _, rfl, rfl⟩
  | refused hissue =>
    rw [hissue] at h
    cases h
  | plain hplain => simp [htype] at hplain
  | numbered hnon => simp [htype] at hnon

/-! ## What belongs to a key -/

/-- Every exchange repeats a message with its own ID, and not too often. -/
structure Sound (s : Outgoing) : Prop where
  id : ∀ key x, s.exchanges.get? key = some x → x.message.id = key.id
  repeated : ∀ key x, s.exchanges.get? key = some x → x.repeated ≤ s.policy.maxRetransmit

/-- The outcomes under a key that an event makes known. -/
def publishedFor (s : Outgoing) (t : Instant) (key : MessageKey) (event : Event) :
    List ExchangeEvent :=
  (s.published t event).filter fun e => e.peer = key.peer ∧ e.id = key.id

/-- The messages with the ID of a key that are repeated to its peer at an event. -/
def repeatedFor (s : Outgoing) (t : Instant) (key : MessageKey) (event : Event) : List Message :=
  ((s.repeated t event).filter fun e => e.1 = key.peer ∧ e.2.id = key.id).map (·.2)

/-- An exchange whose timer goes off. -/
def IsDue (t : Instant) (chosen : MessageKey → Bool) (key : MessageKey) (x : OpenExchange) : Prop :=
  chosen key ∧ x.due ≤ t

instance {chosen : MessageKey → Bool} : Decidable (IsDue t chosen key x) :=
  inferInstanceAs (Decidable (_ ∧ _))

/-- What comes of the exchanges that are due, under one key. -/
theorem filter_filterMap_due {β : Type} (chosen : MessageKey → Bool)
    (g : MessageKey × OpenExchange → Option β) (belongs : β → Bool)
    (h : ∀ k x, s.exchanges.get? k = some x → ∀ b, g (k, x) = some b → (belongs b ↔ k = key)) :
    ((s.exchanges.entries.filter fun e => chosen e.1 ∧ e.2.due ≤ t).filterMap g).filter belongs =
      match s.exchanges.get? key with
      | some x => if IsDue t chosen key x then (g (key, x)).toList else []
      | none => [] := by
  have hkey : ∀ l : List (MessageKey × OpenExchange),
      (∀ e ∈ l, s.exchanges.get? e.1 = some e.2) →
      (l.filterMap g).filter belongs = (l.filter fun e => e.1 = key).filterMap g := by
    intro l hl
    induction l with
    | nil => rfl
    | cons e rest ih =>
      obtain ⟨he, hrest⟩ := List.forall_mem_cons.mp hl
      cases hg : g e with
      | none => by_cases hk : e.1 = key <;> simp [hg, hk, ih hrest]
      | some b =>
        have hb := h e.1 e.2 he b hg
        by_cases hk : e.1 = key
        · simp [hg, hk, hb.mpr hk, ih hrest]
        · simp [hg, hk, mt hb.mp hk, ih hrest]
  rw [hkey _ fun e he => Table.mem_entries_iff.mp (List.mem_of_mem_filter he), List.filter_filter,
    List.filter_congr (q := fun e => (decide (chosen key ∧ e.2.due ≤ t)) && decide (e.1 = key))
      (fun e _ => by by_cases hk : e.1 = key <;> simp [hk]),
    ← List.filter_filter, s.exchanges.filter_entries]
  cases s.exchanges.get? key with
  | none => rfl
  | some x =>
    by_cases hdue : IsDue t chosen key x
    · have hd : chosen key = true ∧ x.due ≤ t := hdue
      cases hg : g (key, x) <;> simp [hdue, hd, hg]
    · have hd : ¬ (chosen key = true ∧ x.due ≤ t) := hdue
      simp [hdue, hd]

/-! ## What becomes of an open exchange -/

/-- An acknowledgement or a reset that answers the exchange of a key; a request is neither. -/
def Replies (key : MessageKey) (type : MessageType) (reply : Message) : Prop :=
  reply.type = type ∧ reply.id = key.id ∧ ¬ reply.isRequest

/-- An event from outside that ends the exchange of a key with this token. -/
def Ends (key : MessageKey) (token : Token) (event : Event) : Prop :=
  (∃ reply, event = .receive key.peer reply ∧
    (Replies key .acknowledgement reply ∨ Replies key .reset reply)) ∨
  event = .cancel key.peer token

/-- An exchange whose message is repeated; the next wait is twice as long. -/
def again (x : OpenExchange) (t : Instant) : OpenExchange :=
  { x with repeated := x.repeated + 1, wait := x.wait * 2, due := (t + x.wait * 2).tick }

/-- What can become of an open exchange at an event: what is made known, what is repeated, and
the exchange afterwards. -/
inductive Turn (policy : Transmission) (t : Instant) (key : MessageKey) (x : OpenExchange) :
    Event → List ExchangeEvent → List Message → Option OpenExchange → Prop
  | rests {event : Event} (hevent : ¬ Ends key x.message.token event)
      (hdue : ∀ chosen, event = .timers chosen → ¬ IsDue t chosen key x) :
      Turn policy t key x event [] [] (some x)
  | repeats {chosen : MessageKey → Bool} (hdue : IsDue t chosen key x)
      (hlt : x.repeated < policy.maxRetransmit) :
      Turn policy t key x (.timers chosen) [] [x.message] (some (again x t))
  | acknowledged {reply : Message} (hreply : Replies key .acknowledgement reply) :
      Turn policy t key x (.receive key.peer reply)
        [⟨key.peer, x.message.token, key.id, .acknowledged⟩] [] none
  | reset {reply : Message} (hreply : Replies key .reset reply) :
      Turn policy t key x (.receive key.peer reply)
        [⟨key.peer, x.message.token, key.id, .reset⟩] [] none
  | timedOut {chosen : MessageKey → Bool} (hdue : IsDue t chosen key x)
      (hge : policy.maxRetransmit ≤ x.repeated) :
      Turn policy t key x (.timers chosen)
        [⟨key.peer, x.message.token, key.id, .timedOut (policy.maxRetransmit + 1)⟩] [] none
  | cancelled : Turn policy t key x (.cancel key.peer x.message.token) [] [] none

/-- An exchange repeats its message when it is due, unless that was done often enough. -/
theorem repeatedFor_timers (hs : s.Sound) (chosen : MessageKey → Bool) :
    s.repeatedFor t key (.timers chosen) =
      match s.exchanges.get? key with
      | some x => if IsDue t chosen key x then
          ((x.renew? s.policy true t).map (·.message)).toList else []
      | none => [] := by
  have hbelongs (k : MessageKey) (x : OpenExchange) (hx : s.exchanges.get? k = some x)
      (b : Endpoint × Message)
      (hb : ((x.renew? s.policy true t).map fun x => (k.peer, x.message)) = some b) :
      decide (b.1 = key.peer ∧ b.2.id = key.id) = true ↔ k = key := by
    obtain ⟨x', hx', rfl⟩ := Option.map_eq_some_iff.mp hb
    have hmessage : x'.message = x.message := by
      unfold OpenExchange.renew? at hx'
      split at hx'
      · cases hx'; rfl
      · cases hx'
    rw [decide_eq_true_eq, hmessage, hs.id k x hx]
    obtain ⟨p, i⟩ := k
    obtain ⟨p', i'⟩ := key
    simp
  simp only [repeatedFor, repeated, fireChosen]
  rw [filter_filterMap_due chosen _ _ hbelongs]
  cases s.exchanges.get? key with
  | none => rfl
  | some x =>
    dsimp only
    split
    · cases x.renew? s.policy true t <;> rfl
    · rfl

/-- An exchange that was repeated often enough publishes that its time is over. -/
theorem publishedFor_timers (chosen : MessageKey → Bool) :
    s.publishedFor t key (.timers chosen) =
      match s.exchanges.get? key with
      | some x => if IsDue t chosen key x then (x.timeout? s.policy key).toList else []
      | none => [] := by
  have hbelongs (k : MessageKey) (x : OpenExchange) (_ : s.exchanges.get? k = some x)
      (b : ExchangeEvent) (hb : x.timeout? s.policy k = some b) :
      decide (b.peer = key.peer ∧ b.id = key.id) = true ↔ k = key := by
    unfold OpenExchange.timeout? at hb
    split at hb
    · cases hb
    · cases hb
      obtain ⟨p, i⟩ := k
      obtain ⟨p', i'⟩ := key
      simp
  simp only [publishedFor, published, fireChosen]
  exact filter_filterMap_due chosen _ _ hbelongs

/-- Timers renew what is due, or remove it. -/
theorem get?_timers (chosen : MessageKey → Bool) :
    (s.step t (.timers chosen)).exchanges.get? key =
      (s.exchanges.get? key).bind fun x =>
        if IsDue t chosen key x then x.renew? s.policy true t else some x :=
  Table.get?_filterMapValues ..

/-- So a timer is a turn of each exchange. -/
theorem turn_timers (hs : s.Sound) (hx : s.exchanges.get? key = some x)
    (chosen : MessageKey → Bool) :
    Turn s.policy t key x (.timers chosen) (s.publishedFor t key (.timers chosen))
      (s.repeatedFor t key (.timers chosen)) ((s.step t (.timers chosen)).exchanges.get? key) := by
  rw [publishedFor_timers, repeatedFor_timers hs, get?_timers, hx]
  simp only [Option.bind_some]
  by_cases hdue : IsDue t chosen key x
  · simp only [hdue, if_true, OpenExchange.timeout?, OpenExchange.renew?]
    by_cases hlt : x.repeated < s.policy.maxRetransmit
    · simpa [hlt, again] using .repeats hdue hlt
    · simpa [hlt] using .timedOut hdue (Nat.le_of_not_lt hlt)
  · simp only [hdue, if_false]
    refine .rests (by simp [Ends]) ?_
    rintro _ ⟨⟩
    exact hdue

/-- What a received message does: it closes the exchange it answers, or it changes nothing. -/
inductive Receiving (s : Outgoing) (peer : Endpoint) (m : Message) :
    Option ExchangeEvent → Outgoing → Prop
  | ignored (h : ∀ x, s.exchanges.get? ⟨peer, m.id⟩ = some x →
      ¬ Replies ⟨peer, m.id⟩ .acknowledgement m ∧ ¬ Replies ⟨peer, m.id⟩ .reset m) :
      Receiving s peer m none s
  | closed {x : OpenExchange} {outcome : ExchangeOutcome}
      (hx : s.exchanges.get? ⟨peer, m.id⟩ = some x)
      (houtcome : outcome = .acknowledged ∧ Replies ⟨peer, m.id⟩ .acknowledgement m ∨
        outcome = .reset ∧ Replies ⟨peer, m.id⟩ .reset m) :
      Receiving s peer m (some ⟨peer, x.message.token, m.id, outcome⟩)
        { s with exchanges := s.exchanges.erase ⟨peer, m.id⟩ }

/-- A message that comes in concerns one exchange at most. -/
theorem receive_cases (s : Outgoing) (peer : Endpoint) (m : Message) :
    Receiving s peer m (s.receive peer m).2.1 (s.receive peer m).2.2 := by
  by_cases hrequest : m.isRequest
  · have hnone : (s.receive peer m).2 = (none, s) := by
      cases htype : m.type <;> simp [receive, htype, hrequest]
    rw [hnone]
    exact .ignored fun _ _ => ⟨fun h => h.2.2 hrequest, fun h => h.2.2 hrequest⟩
  · cases hx : s.exchanges.get? ⟨peer, m.id⟩ with
    | none =>
      have hnone : (s.receive peer m).2 = (none, s) := by
        cases htype : m.type <;> simp [receive, htype, hrequest, hx]
      rw [hnone]
      exact .ignored fun _ h => by rw [hx] at h; cases h
    | some x =>
      cases htype : m.type with
      | acknowledgement =>
        simpa [receive, htype, hrequest, hx] using .closed hx (.inl ⟨rfl, htype, rfl, hrequest⟩)
      | reset =>
        simpa [receive, htype, hrequest, hx] using .closed hx (.inr ⟨rfl, htype, rfl, hrequest⟩)
      | _ =>
        simp only [receive, htype]
        have hneither (type : MessageType) (hreply : type = .acknowledgement ∨ type = .reset) :
            ¬ Replies ⟨peer, m.id⟩ type m := by
          rintro ⟨rfl, -⟩
          simp [htype] at hreply
        exact .ignored fun _ _ => ⟨hneither _ (.inl rfl), hneither _ (.inr rfl)⟩

/-- A message that comes in is a turn of the exchange. -/
theorem turn_receive (hx : s.exchanges.get? key = some x) :
    Turn s.policy t key x (.receive peer m) (s.publishedFor t key (.receive peer m)) []
      ((s.receive peer m).2.2.exchanges.get? key) := by
  have hcases := receive_cases s peer m
  rw [publishedFor, published]
  generalize (s.receive peer m).2.1 = event? at hcases
  generalize (s.receive peer m).2.2 = s' at hcases
  obtain ⟨p, i⟩ := key
  cases hcases with
  | ignored h =>
    rw [hx]
    refine .rests ?_ (by simp)
    rintro (⟨reply, he, hreply⟩ | he)
    · cases he
      obtain rfl : m.id = i := by rcases hreply with h | h <;> exact h.2.1
      obtain ⟨hack, hreset⟩ := h x hx
      exact hreply.elim hack hreset
    · cases he
  | @closed x' outcome hx' houtcome =>
    rw [Table.get?_erase]
    by_cases hkey : (⟨peer, m.id⟩ : MessageKey) = ⟨p, i⟩
    · cases hkey
      obtain rfl : x = x' := Option.some.inj (hx.symm.trans hx')
      obtain ⟨rfl, hreply⟩ | ⟨rfl, hreply⟩ := houtcome
      · simpa using .acknowledged hreply
      · simpa using .reset hreply
    · -- another exchange was closed
      rw [if_neg hkey, hx]
      simp only [MessageKey.mk.injEq] at hkey
      rw [Option.toList_some, List.filter_singleton, decide_eq_false hkey]
      refine .rests ?_ (by simp)
      rintro (⟨reply, he, hreply⟩ | he)
      · cases he
        have hid : m.id = i := by rcases hreply with h | h <;> exact h.2.1
        exact hkey ⟨rfl, hid⟩
      · cases he

/-- A cancellation is a turn of the exchange. -/
theorem turn_cancel {token : Token} (hx : s.exchanges.get? key = some x) :
    Turn s.policy t key x (.cancel peer token) [] []
      ((s.cancel peer token).exchanges.get? key) := by
  rw [cancel, Table.get?_filter, hx]
  by_cases hmatch : key.peer = peer ∧ x.message.token = token
  · obtain ⟨rfl, rfl⟩ := hmatch
    have hdropped : (some x).filter
        (fun x' => !(key.peer == key.peer && x'.message.token == x.message.token)) = none := by
      simp [Option.filter]
    rw [hdropped]
    exact .cancelled
  · have hkept : (some x).filter (fun x => !(key.peer == peer && x.message.token == token)) =
        some x := by
      simpa [Option.filter] using fun h => not_and.mp hmatch h
    rw [hkept]
    refine .rests ?_ (by simp)
    rintro (⟨reply, he, -⟩ | he)
    · cases he
    · cases he
      exact hmatch ⟨rfl, rfl⟩

/-- A message that is sent opens an exchange of its own and leaves the others alone. -/
theorem get?_send_of_not_opens (hnot : ¬ s.Opens t key (.send peer m)) :
    (s.send t peer m).2.exchanges.get? key = s.exchanges.get? key := by
  have hcases := send_cases s t peer m
  rw [opens_send_iff] at hnot
  generalize (s.send t peer m).1 = result at hcases hnot
  generalize (s.send t peer m).2 = s' at hcases
  cases hcases with
  | @opened id ids htype hissue =>
    dsimp only
    rw [Table.get?_insert, if_neg]
    rintro rfl
    exact hnot ⟨htype, _, rfl, rfl⟩
  | _ => rfl

/-- IDs may be purged without an effect on exchanges. -/
theorem exchanges_purgeIds : (s.purgeIds t).exchanges = s.exchanges := by
  unfold purgeIds
  split <;> rfl

/-- **What an event does to an open exchange**, unless its ID is given to another message. -/
theorem turn_step (hs : s.Sound) (hx : s.exchanges.get? key = some x)
    (hnot : ¬ s.Opens t key event) :
    Turn s.policy t key x event (s.publishedFor t key event) (s.repeatedFor t key event)
      ((s.step t event).exchanges.get? key) := by
  cases event with
  | send peer m =>
    rw [step, get?_send_of_not_opens hnot, hx]
    exact .rests (by simp [Ends]) (by simp)
  | receive peer m => exact turn_receive hx
  | cancel peer token => exact turn_cancel hx
  | timers chosen => exact turn_timers hs hx chosen
  | purge =>
    rw [step, exchanges_purgeIds, hx]
    exact .rests (by simp [Ends]) (by simp)

/-- Nothing comes of a key without an exchange, until there is one. -/
theorem silent_step (hs : s.Sound) (hx : s.exchanges.get? key = none)
    (hnot : ¬ s.Opens t key event) :
    s.publishedFor t key event = [] ∧ s.repeatedFor t key event = [] ∧
      (s.step t event).exchanges.get? key = none := by
  cases event with
  | send peer m => exact ⟨rfl, rfl, (get?_send_of_not_opens hnot).trans hx⟩
  | receive peer m =>
    have hcases := receive_cases s peer m
    rw [publishedFor, published, step]
    generalize (s.receive peer m).2.1 = event? at hcases
    generalize (s.receive peer m).2.2 = s' at hcases
    obtain ⟨p, i⟩ := key
    cases hcases with
    | ignored => exact ⟨rfl, rfl, hx⟩
    | closed hx' =>
      have hkey : (⟨peer, m.id⟩ : MessageKey) ≠ ⟨p, i⟩ := fun h => by
        rw [h, hx] at hx'
        cases hx'
      refine ⟨?_, rfl, by rw [Table.get?_erase, if_neg hkey, hx]⟩
      rw [Option.toList_some, List.filter_singleton,
        decide_eq_false (by simpa only [ne_eq, MessageKey.mk.injEq] using hkey)]
      rfl
  | cancel peer token =>
    refine ⟨rfl, rfl, ?_⟩
    rw [step, cancel, Table.get?_filter, hx, Option.filter_none]
  | timers chosen =>
    rw [publishedFor_timers, repeatedFor_timers hs, get?_timers, hx]
    exact ⟨rfl, rfl, rfl⟩
  | purge =>
    refine ⟨rfl, rfl, ?_⟩
    rw [step, exchanges_purgeIds, hx]

/-- What an event does that opens an exchange. -/
theorem step_of_opens (h : s.Opens t key event) :
    ∃ m, event = .send key.peer m ∧ m.type = .confirmable ∧
      (s.ids.issue t key.peer).1 = .ok key.id ∧
      (s.send t key.peer m).1 = .ok { m with id := key.id } ∧
      s.step t event =
        { s with
          ids := (s.ids.issue t key.peer).2
          shares := s.shares.next.2
          exchanges := s.exchanges.insert key (s.newExchange t { m with id := key.id }) } := by
  cases event with
  | send peer m =>
    obtain ⟨htype, m', hsent, hkey⟩ := opens_send_iff.mp h
    have hcases := send_cases s t peer m
    rw [step]
    generalize hresult : (s.send t peer m).1 = result at hcases hsent
    generalize (s.send t peer m).2 = s' at hcases
    cases hcases with
    | opened _ hissue =>
      cases hsent
      subst hkey
      exact ⟨m, rfl, htype, by rw [hissue], hresult, by rw [hissue]⟩
    | refused => cases hsent
    | plain hplain => simp [htype] at hplain
    | numbered hnon => simp [htype] at hnon
  | _ => cases h

/-- What an event does besides the exchanges: the policy and what is still to be drawn stay, and
an ID is issued, the IDs are looked through, or they stay as well. -/
theorem frame_step (s : Outgoing) (t : Instant) (event : Event) :
    (s.step t event).policy = s.policy ∧ (s.step t event).shares.value = s.shares.value ∧
      ((s.step t event).ids = s.ids ∨ (∃ peer, (s.step t event).ids = (s.ids.issue t peer).2) ∨
        (s.step t event).ids = s.ids.purge t) := by
  cases event with
  | send peer m =>
    have hcases := send_cases s t peer m
    rw [step]
    generalize (s.send t peer m).1 = result at hcases
    generalize (s.send t peer m).2 = s' at hcases
    cases hcases with
    | plain => exact ⟨rfl, rfl, .inl rfl⟩
    | refused hissue | numbered _ hissue | opened _ hissue =>
      exact ⟨rfl, rfl, .inr (.inl ⟨peer, (congrArg Prod.snd hissue).symm⟩)⟩
  | receive peer m =>
    have hcases := receive_cases s peer m
    rw [step]
    generalize (s.receive peer m).2.1 = event? at hcases
    generalize (s.receive peer m).2.2 = s' at hcases
    cases hcases <;> exact ⟨rfl, rfl, .inl rfl⟩
  | purge =>
    rw [step, purgeIds]
    split
    · exact ⟨rfl, rfl, .inr (.inr rfl)⟩
    · exact ⟨rfl, rfl, .inl rfl⟩
  | _ => exact ⟨rfl, rfl, .inl rfl⟩

theorem policy_step : (s.step t event).policy = s.policy := (frame_step s t event).1

/-- At the start no exchange is open. -/
theorem sound_start (policy : Transmission) (ids : MessageIdPool) (shares : Draws Rat) :
    (start policy ids shares).Sound :=
  ⟨by rintro key x ⟨⟩, by rintro key x ⟨⟩⟩

/-- An exchange in a state after an event was opened by it or goes on. -/
theorem sound_step (hs : s.Sound) : (s.step t event).Sound := by
  have hold (key : MessageKey) (x : OpenExchange)
      (hx : (s.step t event).exchanges.get? key = some x) :
      x.message.id = key.id ∧ x.repeated ≤ s.policy.maxRetransmit := by
    by_cases hopens : s.Opens t key event
    · obtain ⟨m, -, -, -, -, hstep⟩ := step_of_opens hopens
      rw [hstep, Table.get?_insert_self] at hx
      cases hx
      exact ⟨rfl, Nat.zero_le _⟩
    · cases hbefore : s.exchanges.get? key with
      | none =>
        rw [(silent_step hs hbefore hopens).2.2] at hx
        cases hx
      | some x' =>
        have hturn := turn_step hs hbefore hopens
        rw [hx] at hturn
        generalize s.publishedFor t key event = events at hturn
        generalize s.repeatedFor t key event = sent at hturn
        cases hturn with
        | rests => exact ⟨hs.id key x hbefore, hs.repeated key x hbefore⟩
        | repeats _ hlt => exact ⟨hs.id key x' hbefore, hlt⟩
  refine ⟨fun key x hx => (hold key x hx).1, fun key x hx => ?_⟩
  rw [policy_step]
  exact (hold key x hx).2

end Coap.Outgoing
