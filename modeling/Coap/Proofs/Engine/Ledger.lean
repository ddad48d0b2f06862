/-
# The ledger of tokens

A node keeps two accounts of the requests it waits for: the open conversations, and the tokens
in use with each peer.  Many steps open or end a conversation, and each of them has to enter
that in both.  So it is enough to look at one key at a time: a step leaves it alone in both
accounts, or leaves it with both accounts in agreement.  This can be chained, and every event
is of this kind, with one exception: a request without code gives its token no conversation.
-/
import Coap.Proofs.Engine.Conversations
import Coap.Proofs.Identifier.Taken

namespace Coap.Engine

variable {e e' e'' : Engine} {key k : ConversationKey} {peer : Endpoint} {m : Message}

/-! ## Conversations that are given up -/

/-- A conversation that is dropped is struck off, queued for withdrawal and logged. -/
theorem dropConversation_frame (e : Engine) (key : ConversationKey) :
    ∃ conversations withdrawing log,
      e.dropConversation key = { e with conversations, withdrawing, log } := by
  unfold dropConversation
  split
  · exact ⟨_, _, _, rfl⟩
  · simp only
    split
    · exact report_frame { e with conversations := e.conversations.erase key } key _ _ _
    · exact ⟨_, _, _, rfl⟩

/-- Its token is given back later. -/
theorem tokens_dropConversation (e : Engine) (key : ConversationKey) :
    (e.dropConversation key).tokens = e.tokens := by
  obtain ⟨_, _, _, hframe⟩ := dropConversation_frame e key
  rw [hframe]

/-- A conversation is opened under a token that was taken before. -/
theorem tokens_openConversation (e : Engine) (key : ConversationKey) (r : Requester) :
    (e.openConversation key r).tokens = e.tokens :=
  tokens_dropConversation e key

/-! ## Two accounts -/

/-- The token is in use with the peer. -/
def Reserves (e : Engine) (key : ConversationKey) : Prop := key.token ∈ e.tokens.taken key.peer

/-- There is an open conversation with the peer under the token. -/
def Converses (e : Engine) (key : ConversationKey) : Prop :=
  (e.conversations.get? key).isSome = true

/-- The tokens in use are those of the open conversations, and none is entered twice. -/
structure Balanced (e : Engine) : Prop where
  tidy : e.tokens.Tidy
  reserves_iff : ∀ key, e.Reserves key ↔ e.Converses key

/-- A step leaves each key alone in both accounts, or leaves both accounts in agreement. -/
structure Books (e e' : Engine) : Prop where
  length : e'.tokens.length = e.tokens.length
  tidy : e.tokens.Tidy → e'.tokens.Tidy
  agree : ∀ key, ((e'.Reserves key ↔ e.Reserves key) ∧ (e'.Converses key ↔ e.Converses key)) ∨
    (e'.Reserves key ↔ e'.Converses key)

/-- Accounts that agree go on to agree. -/
theorem Balanced.books (h : e.Balanced) (hbooks : Books e e') : e'.Balanced where
  tidy := hbooks.tidy h.tidy
  reserves_iff key := by
    rcases hbooks.agree key with ⟨hreserves, hconverses⟩ | hagree
    · rw [hreserves, hconverses, h.reserves_iff]
    · exact hagree

namespace Books

/-- Accounts that are kept in two steps are kept in both together. -/
theorem trans (h : Books e e') (h' : Books e' e'') : Books e e'' where
  length := h'.length.trans h.length
  tidy htidy := h'.tidy (h.tidy htidy)
  agree key := by
    rcases h'.agree key with ⟨hreserves', hconverses'⟩ | hagree'
    · rcases h.agree key with ⟨hreserves, hconverses⟩ | hagree
      · exact .inl ⟨hreserves'.trans hreserves, hconverses'.trans hconverses⟩
      · exact .inr (by rw [hreserves', hconverses', hagree])
    · exact .inr hagree'

/-- Neither account changes. -/
theorem of_same (htokens : e'.tokens = e.tokens)
    (hconv : ∀ k, (e'.conversations.get? k).isSome = (e.conversations.get? k).isSome) :
    Books e e' := by
  refine ⟨by rw [htokens], by rw [htokens]; exact id, fun key => .inl ⟨?_, ?_⟩⟩
  · rw [Reserves, Reserves, htokens]
  · rw [Converses, Converses, hconv]

/-- A quiet step enters nothing. -/
theorem of_quiet (h : Quiet e e') : Books e e' :=
  of_same h.tokens fun _ => by rw [h.conversations]

/-- Where nothing happens, accounts are kept. -/
theorem refl (e : Engine) : Books e e := of_same rfl fun _ => rfl

/-- A conversation ends and gives up its token. -/
theorem of_end (htokens : e'.tokens = e.tokens.release key.peer key.token)
    (hconv : ∀ k, e'.conversations.get? k = if key = k then none else e.conversations.get? k) :
    Books e e' := by
  have hreserves (k : ConversationKey) : e'.Reserves k ↔ e.Reserves k ∧ key ≠ k := by
    rw [Reserves, htokens, TokenPool.mem_taken_release, Reserves, Ne, ConversationKey.mk.injEq]
  refine ⟨by rw [htokens, TokenPool.length_release],
    fun htidy => by rw [htokens]; exact htidy.release _ _, fun k => ?_⟩
  rw [hreserves, Converses, hconv]
  by_cases hk : key = k
  · exact .inr (by simp [hk])
  · exact .inl (by simp [hk, Converses])

/-! ## Reports and ends -/

/-- Reports are not entered in the accounts. -/
theorem report (e : Engine) (key : ConversationKey) (c : Conversation) (r : Report)
    (outcome : Except SendFailure Message) : Books e (e.report key c r outcome) := by
  obtain ⟨_, _, _, hframe⟩ := report_frame e key c r outcome
  refine of_same (by rw [hframe]) fun k => ?_
  rw [get?_report, Option.isSome_map]

/-- A conversation that is closed is one of those to be withdrawn. -/
theorem closeConversation (e : Engine) (key : ConversationKey) :
    Books e (e.closeConversation key) :=
  of_end rfl (get?_closeConversation e key)

/-- When a conversation is withdrawn its token is given back. -/
theorem withdraw (e : Engine) (key : ConversationKey) : Books e (e.withdraw key) :=
  of_end (congrArg (·.release key.peer key.token) (tokens_dropConversation e key))
    (get?_dropConversation e key)

/-- A notification changes what is known of an open conversation. -/
theorem notice (c' : Conversation) (hc : (e.conversations.get? key).isSome = true) :
    Books e { e with conversations := e.conversations.insert key c' } := by
  refine of_same rfl fun k => ?_
  rw [Table.get?_insert]
  split
  · next hk => rw [← hk, hc, Option.isSome_some]
  · rfl

/-- A final response closes its conversation, and another one leaves it. -/
theorem deliver (e : Engine) (peer : Endpoint) (m : Message) : Books e (e.deliver peer m) := by
  unfold Engine.deliver
  simp only
  split
  · split
    · exact of_quiet (Quiet.frame.transmit _ _ _)
    · exact refl e
  · next hc =>
    have hopen := Option.isSome_iff_exists.mpr ⟨_, hc⟩
    split
    · exact (closeConversation e _).trans (report _ _ _ _ _)
    · split
      · exact (notice _ hopen).trans (report _ _ _ _ _)
      · split
        · exact (notice _ hopen).trans (report _ _ _ _ _)
        · exact refl e

/-! ## Events -/

/-- No event but a request takes a token. -/
theorem frame : NodeFrame Books fun _ _ => True where
  toServingFrame := Quiet.frame.mono (fun _ _ => of_quiet) trans
  closed e _ _ := of_quiet (.layers e _ _ _ _ _)
  heard e _ _ := of_quiet (.layers e _ _ _ _ _)
  deliver := deliver
  concluded e _ := of_quiet (.layers e _ _ _ _ _)
  failed _ _ := (closeConversation _ _).trans (report _ _ _ _ _)
  deadlines _ _ := of_same rfl fun _ => rfl
  withdraw := withdraw
  withdrawing _ _ := of_same rfl fun _ => rfl
  repeated e _ := of_quiet (.layers e _ _ _ _ _)
  resumeDue e now := of_quiet (.resumeDue e now)
  stateSet e _ _ := of_quiet (.layers e _ _ _ _ _)
  outboxOpen _ _ := of_same rfl fun _ => rfl
  under _ _ := of_same rfl fun _ => rfl
  now _ _ := of_same rfl fun _ => rfl

end Books

/-! ## Submitted requests -/

/-- Sends a request whose conversation is open; if it does not go out, that is closed. -/
def sendOrClose (e : Engine) (peer : Endpoint) (m : Message) (r : Requester) :
    Option Token × Engine :=
  let (result, e) := e.sendThrough peer m none
  match result with
  | .ok _ => (some m.token, e)
  | .error failure =>
    (none, (e.closeConversation ⟨peer, m.token⟩).reportUnsent peer r failure)

/-- Submits a request; those who have the result they waited for have not withdrawn yet. -/
def attempt (e : Engine) (peer : Endpoint) (m : Message) (r : Requester) :
    Option Token × Engine :=
  let (result, e) := e.withToken peer m
  match result with
  | .error failure => (none, e.reportUnsent peer r failure)
  | .ok m => (e.openConversation ⟨peer, m.token⟩ r).sendOrClose peer m r

/-- A request is attempted first, and then what it ended is settled. -/
theorem submit_eq (e : Engine) (peer : Endpoint) (m : Message) (r : Requester) :
    e.submit peer m r = ((e.attempt peer m r).1, (e.attempt peer m r).2.settle) := by
  unfold submit attempt sendOrClose
  simp only
  cases (e.withToken peer m).1 with
  | error failure => rfl
  | ok sent =>
    simp only
    cases (((e.withToken peer m).2.openConversation ⟨peer, sent.token⟩ r).sendThrough
      peer sent none).1 <;> rfl

/-- A request goes out with the token that it has. -/
theorem token_sendOrClose {r : Requester} {token : Token}
    (h : (e.sendOrClose peer m r).1 = some token) : token = m.token := by
  unfold sendOrClose at h
  simp only at h
  split at h
  · exact (Option.some.inj h).symm
  · cases h

/-- How a request gets its token: one is made up that was not in use, the message brings its
own, there is none to be had, or one is made up for a message that has no room for it. -/
inductive Tokened (e : Engine) (peer : Endpoint) (m : Message) :
    Except SendFailure Message → Engine → Prop
  | drawn {token : Token} {bytes : Draws UInt8} (hnone : m.token.isEmpty = true)
      (hlength : token.bytes.length = e.tokens.length) (hfree : ¬ e.Reserves ⟨peer, token⟩)
      (hroom : m.isEmpty = true → token.isEmpty = true) :
      Tokened e peer m (.ok { m with token })
        { e with tokens := ({ e.tokens with bytes }.reserve peer token).2 }
  | given (hsome : m.token.isEmpty = false) :
      Tokened e peer m (.ok m) { e with tokens := (e.tokens.reserve peer m.token).2 }
  | exhausted {bytes : Draws UInt8} (hnone : m.token.isEmpty = true)
      (hfailed : (e.tokens.generate peer).1 = .error .tokens) :
      Tokened e peer m (.error (.noToken .tokens)) { e with tokens := { e.tokens with bytes } }
  | wasted {token : Token} {bytes : Draws UInt8} {fault : BuildFault}
      (hnone : m.token.isEmpty = true) (hempty : m.isEmpty = true)
      (hdrawn : (e.tokens.generate peer).1 = .ok token) (hfree : ¬ e.Reserves ⟨peer, token⟩) :
      Tokened e peer m (.error (.notBuilt fault))
        { e with tokens := ({ e.tokens with bytes }.reserve peer token).2 }

/-- These are all the ways in which a request may get its token. -/
theorem tokened (e : Engine) (peer : Endpoint) (m : Message) :
    Tokened e peer m (e.withToken peer m).1 (e.withToken peer m).2 := by
  unfold withToken
  by_cases hnone : m.token.isEmpty = true
  · rw [if_pos hnone]
    rcases e.tokens.generate_cases peer with
      ⟨token, bytes, hdrawn, hlength, hfree, hpool⟩ | ⟨bytes, hfailed, hpool⟩
    · simp only [hdrawn, hpool]
      by_cases hfull : m.isEmpty ∧ !token.isEmpty
      · rw [show m.setToken token = _ from if_pos hfull]
        exact .wasted hnone hfull.1 hdrawn hfree
      · rw [show m.setToken token = _ from if_neg hfull]
        refine .drawn hnone hlength hfree fun hempty => ?_
        simpa [hempty] using hfull
    · simp only [hfailed, hpool]
      exact .exhausted hnone hfailed
  · rw [if_neg hnone]
    exact .given (Bool.not_eq_true _ ▸ hnone)

namespace Books

/-- Tokens may be drawn without being taken into use. -/
theorem drawn (e : Engine) (bytes : Draws UInt8) :
    Books e { e with tokens := { e.tokens with bytes } } :=
  ⟨rfl, fun htidy => ⟨htidy.nodup, htidy.nonempty⟩, fun _ => .inl ⟨.rfl, .rfl⟩⟩

/-- A request takes a token into use and opens its conversation. -/
theorem opening (e : Engine) (key : ConversationKey) (r : Requester) :
    Books e ({ e with tokens := (e.tokens.reserve key.peer key.token).2 }.openConversation
      key r) := by
  have htokens := tokens_openConversation
    { e with tokens := (e.tokens.reserve key.peer key.token).2 } key r
  refine ⟨by rw [htokens, TokenPool.length_reserve],
    fun htidy => by rw [htokens]; exact htidy.reserve _ _, fun k => ?_⟩
  have hreserves : k.token ∈ (e.tokens.reserve key.peer key.token).2.taken k.peer ↔
      e.Reserves k ∨ (key.peer = k.peer ∧ key.token = k.token) := TokenPool.mem_taken_reserve
  rw [Reserves, htokens, hreserves, Converses, get?_openConversation]
  by_cases hk : key = k
  · subst hk
    exact .inr (by simp)
  · have hparts : ¬ (key.peer = k.peer ∧ key.token = k.token) := by
      rwa [← ConversationKey.mk.injEq]
    exact .inl (by simp [hk, hparts, Reserves, Converses])

/-- A request that could not be sent is reported, and no more. -/
theorem reportUnsent (e : Engine) (peer : Endpoint) (r : Requester) (failure : SendFailure) :
    Books e (e.reportUnsent peer r failure) :=
  of_same rfl fun _ => rfl

/-- A conversation is opened before its request is sent, and closed if that fails. -/
theorem sendOrClose (e : Engine) (peer : Endpoint) (m : Message) (r : Requester) :
    Books e (e.sendOrClose peer m r).2 := by
  have hsent := of_quiet (Quiet.sendThrough e peer m none)
  unfold Engine.sendOrClose
  simp only
  split
  · exact hsent
  · exact (hsent.trans (closeConversation _ _)).trans (reportUnsent _ _ _ _)

/-- A request is entered in both accounts or in neither, unless a token is made up for a
message that has no room for it. -/
theorem attempt_or (e : Engine) (peer : Endpoint) (m : Message) (r : Requester) :
    Books e (e.attempt peer m r).2 ∨
      ∃ token bytes failure, m.isEmpty = true ∧ m.token.isEmpty = true ∧
        (e.tokens.generate peer).1 = .ok token ∧ ¬ e.Reserves ⟨peer, token⟩ ∧
        (e.attempt peer m r).2 =
          { e with tokens := ({ e.tokens with bytes }.reserve peer token).2 }.reportUnsent
            peer r failure := by
  have htokened := e.tokened peer m
  unfold Engine.attempt
  simp only
  generalize (e.withToken peer m).1 = result at htokened ⊢
  generalize (e.withToken peer m).2 = e₀ at htokened ⊢
  cases htokened with
  | @drawn token bytes =>
    exact .inl (((drawn e bytes).trans (opening _ ⟨peer, token⟩ r)).trans (sendOrClose _ _ _ _))
  | given => exact .inl ((opening e ⟨peer, m.token⟩ r).trans (sendOrClose _ _ _ _))
  | @exhausted bytes => exact .inl ((drawn e bytes).trans (reportUnsent _ _ _ _))
  | @wasted token bytes fault hnone hempty hdrawn hfree =>
    exact .inr ⟨token, bytes, _, hempty, hnone, hdrawn, hfree, rfl⟩

/-- A request that is not empty keeps the accounts. -/
theorem submit (e : Engine) (peer : Endpoint) {m : Message} (r : Requester)
    (hfull : m.isEmpty = false) : Books e (e.submit peer m r).2 := by
  rw [submit_eq]
  rcases attempt_or e peer m r with hbooks | ⟨_, _, _, hempty, _⟩
  · exact hbooks.trans (frame.settle _)
  · exact absurd hempty (by rw [hfull]; exact Bool.false_ne_true)

/-- **Every event keeps the books**, as long as it submits no request without a code. -/
theorem step (e : Engine) {event : Event}
    (hfull : ∀ peer m r, event = .submit peer m r → m.isEmpty = false) :
    Books e (e.step event) := by
  refine frame.step e event (fun peer m r hevent => ?_) (fun _ _ _ _ => trivial)
    fun id change _ => of_quiet (.announce e id change)
  subst hevent
  exact submit e peer r (hfull peer m r rfl)

/-- So the accounts are kept throughout. -/
theorem run (events : List Event)
    (hfull : ∀ peer m r, Event.submit peer m r ∈ events → m.isEmpty = false) (e : Engine) :
    Books e (e.run events) := by
  induction events generalizing e with
  | nil => exact refl e
  | cons event rest ih =>
    have hstep : Books e (e.step event) :=
      step e fun peer m r h => hfull peer m r (h ▸ List.mem_cons_self)
    exact hstep.trans (ih (fun peer m r h => hfull peer m r (List.mem_cons_of_mem _ h)) _)

end Books

/-! ## From the beginning -/

/-- At the start both accounts are empty. -/
theorem balanced_start (c : Config) (chances : Chances) (service : Service)
    (resources : List (String × Resource)) : (start c chances service resources).Balanced where
  tidy := ⟨fun _ => List.nodup_nil, fun _ h => nomatch h⟩
  reserves_iff _ := ⟨fun h => absurd h List.not_mem_nil, fun h => absurd h Bool.false_ne_true⟩

/-- **The tokens in use are those of the open conversations.**  Whatever happens to a node to
which no request without a code is submitted, and however its handlers change, a token is in use
with a peer if and only if a conversation with the peer is open under it; none is listed twice, and no peer is listed
without tokens.  So a token that is made up, which has the length that was configured, is not
that of an open conversation with the same peer. -/
theorem tokens_of_open_conversations (c : Config) (chances : Chances) (service : Service)
    (resources : List (String × Resource)) (events : List Event)
    (hfull : ∀ peer m r, Event.submit peer m r ∈ events → m.isEmpty = false) :
    let e := (start c chances service resources).run events
    (∀ peer token, token ∈ e.tokens.taken peer ↔
      (e.conversations.get? ⟨peer, token⟩).isSome = true) ∧
    (∀ peer, (e.tokens.taken peer).Nodup ∧ e.tokens.peers.get? peer ≠ some []) ∧
    (∀ peer token, (e.tokens.generate peer).1 = .ok token →
      token.bytes.length = max 1 (min c.tokenLength 8) ∧
        e.conversations.get? ⟨peer, token⟩ = none) ∧
    ∀ peer m r token, m.token.isEmpty = true → (e.submit peer m r).1 = some token →
      token.bytes.length = max 1 (min c.tokenLength 8) ∧
        e.conversations.get? ⟨peer, token⟩ = none := by
  intro e
  have hbooks := Books.run events hfull (start c chances service resources)
  have hbalanced : e.Balanced := (balanced_start c chances service resources).books hbooks
  have hlength : e.tokens.length = max 1 (min c.tokenLength 8) := hbooks.length
  have hclosed {key : ConversationKey} (hfree : ¬ e.Reserves key) :
      e.conversations.get? key = none := by
    rw [hbalanced.reserves_iff, Converses] at hfree
    simpa using hfree
  refine ⟨fun peer token => hbalanced.reserves_iff ⟨peer, token⟩,
    fun peer => ⟨hbalanced.tidy.nodup peer, hbalanced.tidy.nonempty peer⟩,
    fun peer token hdrawn => ?_, fun peer m r token hnone hgone => ?_⟩
  · rcases e.tokens.generate_cases peer with ⟨drawn, _, hok, hlen, hfree, -⟩ | ⟨_, hnone, -⟩
    · obtain rfl := Except.ok.inj (hok.symm.trans hdrawn)
      exact ⟨hlen.trans hlength, hclosed hfree⟩
    · cases hnone.symm.trans hdrawn
  · have htokened := e.tokened peer m
    rw [submit_eq] at hgone
    unfold attempt at hgone
    simp only at hgone
    generalize (e.withToken peer m).1 = result at htokened hgone
    generalize (e.withToken peer m).2 = e₀ at htokened hgone
    cases htokened with
    | drawn _ hlen hfree =>
      obtain rfl := token_sendOrClose hgone
      exact ⟨hlen.trans hlength, hclosed hfree⟩
    | given hsome => exact absurd hnone (by rw [hsome]; exact Bool.false_ne_true)
    | exhausted => cases hgone
    | wasted => cases hgone

/-- Of three requests the first is answered, the second is withdrawn and the third, which gets
a token that was made up, waits for its answer. -/
theorem tokens_of_three_requests :
    let peer : Endpoint := ⟨1⟩
    let request (token : Token) : Message :=
      { type := .confirmable, code := .request .get, id := 0, token }
    let answer : Message :=
      { type := .acknowledgement, code := .response .content, id := 1000,
        token := ⟨[1], by decide⟩ }
    let chances : Chances :=
      ⟨.constant 1000, .constant (.ofNat 100), ⟨fun i => UInt8.ofNat i, 0⟩, .constant 0⟩
    let events : List Event := [.submit peer (request ⟨[1], by decide⟩) ⟨"first", .full⟩,
      .submit peer (request ⟨[2], by decide⟩) ⟨"second", .plain⟩, .handle peer (.ok answer),
      .cancel ⟨peer, ⟨[2], by decide⟩⟩, .submit peer (request .empty) ⟨"third", .awaiting⟩]
    let e := (start .standard chances (fun _ => { reaction := .hold }) []).run events
    (∀ peer m r, Event.submit peer m r ∈ events → m.isEmpty = false) ∧
    e.tokens.taken peer = [⟨[0, 1, 2, 3], by decide⟩] ∧
    e.conversations.get? ⟨peer, ⟨[4, 5, 6, 7], by decide⟩⟩ = none := by
  intro peer request answer chances events e
  have hfull : ∀ peer m r, Event.submit peer m r ∈ events → m.isEmpty = false := by
    intro peer m r hevent
    simp only [events, List.mem_cons, Event.submit.injEq, List.not_mem_nil, or_false,
      reduceCtorEq, false_or] at hevent
    rcases hevent with ⟨-, rfl, -⟩ | ⟨-, rfl, -⟩ | ⟨-, rfl, -⟩ <;> rfl
  obtain ⟨-, -, hfresh, -⟩ := tokens_of_open_conversations .standard chances
    (fun _ => { reaction := .hold }) [] events hfull
  have hdrawn : (e.tokens.generate peer).1 = .ok ⟨[4, 5, 6, 7], by decide⟩ := by decide +kernel
  exact ⟨hfull, by decide +kernel, (hfresh peer _ hdrawn).2⟩

end Coap.Engine
