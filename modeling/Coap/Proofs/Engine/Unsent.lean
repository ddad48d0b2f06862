/-
# Requests that do not go out

A request that does not go out should leave nothing behind: its requester is told of one
failure, and the open conversations and the tokens in use are what they were before.  That is
so unless one of two things happens.  A token is made up for a message that has no room for
it, and stays in use; or the request was to go out under a token that is in use already, and
takes the token and the conversation of the earlier request down with it.
-/
import Coap.Proofs.Engine.Ledger

namespace Coap.Engine

variable {e e' : Engine} {key k : ConversationKey} {peer : Endpoint} {m : Message}
  {r : Requester} {name : String}

/-! ## Withdrawals that are carried out -/

/-- A conversation that is given up brings about at most one withdrawal. -/
theorem pending_dropConversation (e : Engine) (key : ConversationKey) :
    (e.dropConversation key).withdrawing.length + (e.dropConversation key).conversations.size ≤
      e.withdrawing.length + e.conversations.size := by
  unfold dropConversation
  split
  · exact Nat.le_refl _
  · next c hc =>
    have hsize : (e.conversations.erase key).size + 1 = e.conversations.size :=
      Table.size_erase e.conversations hc
    have hclosed : (e.conversations.erase key).get? key = none := by
      rw [Table.get?_erase, if_pos rfl]
    simp only
    split
    · next hwaits =>
      unfold reportFailure report
      simp only [hwaits]
      split
      · simp only
        omega
      · simp only [note, Table.modify, hclosed, List.length_append, List.length_singleton]
        omega
    · simp only
      omega

/-- With a step for each of them, nothing is left to be withdrawn. -/
theorem withdrawing_withdrawCollected {n : Nat}
    (h : e.withdrawing.length + e.conversations.size ≤ n) :
    (withdrawCollected n e).withdrawing = [] := by
  induction n generalizing e with
  | zero => exact List.length_eq_zero_iff.mp (Nat.eq_zero_of_le_zero (Nat.le_of_add_right_le h))
  | succ n ih =>
    unfold withdrawCollected
    split
    · next hnone => exact hnone
    · next key rest hpending =>
      have hdropped := pending_dropConversation { e with withdrawing := rest } key
      rw [hpending, List.length_cons] at h
      exact ih (Nat.le_trans hdropped (by simp only; omega))

/-- All withdrawals are carried out, also those that are brought about meanwhile. -/
theorem withdrawing_settle (e : Engine) : e.settle.withdrawing = [] :=
  withdrawing_withdrawCollected (Nat.le_refl _)

/-- Where nothing is to be withdrawn, nothing is done. -/
theorem withdrawCollected_of_idle (n : Nat) (h : e.withdrawing = []) :
    withdrawCollected n e = e := by
  cases n <;> simp only [withdrawCollected, h]

/-- Where nothing is to be withdrawn, the books are settled. -/
theorem settle_of_idle (h : e.withdrawing = []) : e.settle = e := withdrawCollected_of_idle _ h

/-- One who waits withdraws a request that is over: the books stay as they are, and nobody is
told. -/
theorem settle_of_closed (hclosed : e.conversations.get? key = none)
    (hpending : e.withdrawing = [key]) :
    e.settle.conversations = e.conversations ∧
      e.settle.tokens = e.tokens.release key.peer key.token ∧ e.settle.reported = e.reported := by
  have hdrop := dropConversation_of_none (e := { e with withdrawing := [] }) hclosed
  have hsettle : e.settle = withdrawCollected e.conversations.size
      ({ e with withdrawing := [] }.withdraw key) := by
    unfold settle
    rw [hpending, List.length_singleton, Nat.add_comm, withdrawCollected]
    simp only [hpending]
  have hidle : ({ e with withdrawing := [] }.withdraw key).withdrawing = [] := by
    unfold withdraw
    rw [hdrop]
  rw [hsettle, withdrawCollected_of_idle _ hidle]
  unfold withdraw
  rw [hdrop]
  exact ⟨rfl, rfl, rfl⟩

/-- A report may bring about the withdrawal of its request, and no other. -/
theorem withdrawing_report (e : Engine) (key : ConversationKey) (c : Conversation) (r : Report)
    (outcome : Except SendFailure Message) :
    (e.report key c r outcome).withdrawing = e.withdrawing ∨
      (e.report key c r outcome).withdrawing = e.withdrawing ++ [key] := by
  unfold report
  split
  · split
    · exact .inl rfl
    · exact .inr rfl
  · exact .inl rfl

/-- A conversation that is given up may bring about its own withdrawal, and no other. -/
theorem withdrawing_dropConversation (e : Engine) (key : ConversationKey) :
    (e.dropConversation key).withdrawing = e.withdrawing ∨
      (e.dropConversation key).withdrawing = e.withdrawing ++ [key] := by
  unfold dropConversation
  split
  · exact .inl rfl
  · simp only
    split
    · exact withdrawing_report { e with conversations := e.conversations.erase key } key _ _ _
    · exact .inl rfl

/-! ## Conversations without tokens -/

/-- Every open conversation has its token in use, and tokens that are made up are not empty. -/
structure Covered (e : Engine) : Prop where
  length_pos : 0 < e.tokens.length
  reserves : ∀ key, e.Converses key → e.Reserves key

/-- Every conversation has its token as long as the accounts are kept. -/
theorem Covered.books (h : e.Covered) (hbooks : Books e e') : e'.Covered where
  length_pos := hbooks.length ▸ h.length_pos
  reserves key hopen := by
    rcases hbooks.agree key with ⟨hreserves, hconverses⟩ | hagree
    · exact hreserves.mpr (h.reserves key (hconverses.mp hopen))
    · exact hagree.mpr hopen

/-- A request that is submitted has its token in use. -/
theorem Covered.submit (h : e.Covered) (peer : Endpoint) (m : Message) (r : Requester) :
    (e.submit peer m r).2.Covered := by
  rw [submit_eq]
  refine Covered.books ?_ (Books.frame.settle _)
  rcases Books.attempt_or e peer m r with hbooks | ⟨token, bytes, _, _, _, _, _, hleft⟩
  · exact h.books hbooks
  · -- the token in vain is one more in use
    rw [hleft]
    have hreserved : Covered
        { e with tokens := ({ e.tokens with bytes }.reserve peer token).2 } := by
      refine ⟨?_, fun key hopen => ?_⟩
      · simp only [TokenPool.length_reserve]
        exact h.length_pos
      · exact TokenPool.mem_taken_reserve.mpr (.inl (h.reserves key hopen))
    exact hreserved.books (Books.reportUnsent _ _ _ _)

/-- So it is throughout. -/
theorem Covered.run (h : e.Covered) (events : List Event) : (e.run events).Covered := by
  induction events generalizing e with
  | nil => exact h
  | cons event rest ih =>
    refine ih ?_
    cases event with
    | submit peer m r => exact h.submit peer m r
    | _ => exact h.books (Books.step e fun _ _ _ hevent => nomatch hevent)

/-- At the start there are no conversations, so none without a token. -/
theorem covered_start (c : Config) (chances : Chances) (service : Service)
    (resources : List (String × Resource)) : (start c chances service resources).Covered where
  length_pos := Nat.lt_of_lt_of_le Nat.zero_lt_one (Nat.le_max_left 1 _)
  reserves _ h := absurd h Bool.false_ne_true

/-! ## What is left behind -/

/-- The open conversations and the tokens in use are the same. -/
structure Restored (e e' : Engine) : Prop where
  conversations : ∀ key, e'.conversations.get? key = e.conversations.get? key
  taken : ∀ peer, e'.tokens.taken peer = e.tokens.taken peer

/-- A token is made up for a message that has no room for it. -/
def Wastes (e : Engine) (peer : Endpoint) (m : Message) : Prop :=
  m.isEmpty = true ∧ m.token.isEmpty = true ∧ ∃ token, (e.tokens.generate peer).1 = .ok token

/-- The token that a message brings is in use with the peer already. -/
def Collides (e : Engine) (peer : Endpoint) (m : Message) : Prop :=
  m.token.isEmpty = false ∧ e.Reserves ⟨peer, m.token⟩

/-- Whether a token is in use already can be computed. -/
instance (e : Engine) (peer : Endpoint) (m : Message) : Decidable (e.Collides peer m) :=
  inferInstanceAs (Decidable (_ ∧ _ ∈ _))

/-- A conversation is opened, in place of the one before, and closed again. -/
structure Reopened (e : Engine) (key : ConversationKey) (e' : Engine) : Prop where
  conversations : ∀ k, e'.conversations.get? k = if key = k then none else e.conversations.get? k
  tokens : e'.tokens = e.tokens.release key.peer key.token
  withdrawing : e'.withdrawing = (e.dropConversation key).withdrawing
  reported : e'.reported = (e.dropConversation key).reported

/-- A conversation that was opened and closed again leaves nothing but its withdrawal. -/
theorem reopened (h : Quiet (e.openConversation key r) e') :
    Reopened e key (e'.closeConversation key) where
  conversations k := by
    rw [get?_closeConversation, h.conversations, get?_openConversation]
    split <;> rfl
  tokens := by
    show e'.tokens.release key.peer key.token = _
    rw [h.tokens, tokens_openConversation]
  withdrawing := h.withdrawing
  reported := h.reported

/-- A token that was free is given up again, together with its conversation. -/
theorem Reopened.restored {bytes : Draws UInt8} (hcovered : e.Covered) (hfree : ¬ e.Reserves key)
    (h : Reopened { e with tokens := ({ e.tokens with bytes }.reserve key.peer key.token).2 }
      key e') :
    Restored e e' ∧ e'.withdrawing = e.withdrawing ∧ e'.reported = e.reported := by
  have hclosed : e.conversations.get? key = none := by
    have hnone : ¬ e.Converses key := fun hopen => hfree (hcovered.reserves key hopen)
    simpa [Converses] using hnone
  have hdrop : dropConversation
      { e with tokens := ({ e.tokens with bytes }.reserve key.peer key.token).2 } key = _ :=
    dropConversation_of_none hclosed
  refine ⟨⟨fun k => ?_, fun p => ?_⟩, by rw [h.withdrawing, hdrop], by rw [h.reported, hdrop]; rfl⟩
  · rw [h.conversations]
    split
    · next hk => rw [← hk, hclosed]
    · rfl
  · rw [h.tokens]
    exact @TokenPool.taken_release_reserve { e.tokens with bytes } key.peer key.token hfree p

/-- What a request that does not go out leaves behind, before its requester is told. -/
inductive Leaves (e : Engine) (peer : Endpoint) (m : Message) : Engine → Prop
  | nothing {e' : Engine} (hwastes : ¬ e.Wastes peer m) (hcollides : ¬ e.Collides peer m)
      (hrestored : Restored e e') (hwithdrawing : e'.withdrawing = e.withdrawing)
      (hreported : e'.reported = e.reported) : Leaves e peer m e'
  | token {token : Token} {bytes : Draws UInt8} (hwastes : e.Wastes peer m)
      (hfree : ¬ e.Reserves ⟨peer, token⟩) :
      Leaves e peer m { e with tokens := ({ e.tokens with bytes }.reserve peer token).2 }
  | less {e' : Engine} (hcollides : e.Collides peer m)
      (hreopened : Reopened e ⟨peer, m.token⟩ e') : Leaves e peer m e'

/-- So it is if its request could not be sent. -/
theorem reopened_of_sendOrClose
    (h : ((e.openConversation ⟨peer, m.token⟩ r).sendOrClose peer m r).1 = none) :
    ∃ failure e', ((e.openConversation ⟨peer, m.token⟩ r).sendOrClose peer m r).2 =
      e'.reportUnsent peer r failure ∧ Reopened e ⟨peer, m.token⟩ e' := by
  have hquiet := Quiet.sendThrough (e.openConversation ⟨peer, m.token⟩ r) peer m none
  unfold sendOrClose at h ⊢
  simp only at h ⊢
  split at h
  · cases h
  · exact ⟨_, _, rfl, reopened hquiet⟩

/-- A request that fails leaves its token or another conversation at most. -/
theorem leaves (hcovered : e.Covered) (h : (e.attempt peer m r).1 = none) :
    ∃ failure e', (e.attempt peer m r).2 = e'.reportUnsent peer r failure ∧
      Leaves e peer m e' := by
  have htokened := e.tokened peer m
  unfold attempt at h ⊢
  simp only at h ⊢
  generalize (e.withToken peer m).1 = result at htokened h ⊢
  generalize (e.withToken peer m).2 = e₀ at htokened h ⊢
  cases htokened with
  | @drawn token bytes hnone hlength hfree hroom =>
    obtain ⟨failure, e', hfailed, hreopened⟩ := reopened_of_sendOrClose h
    obtain ⟨hrestored, hwithdrawing, hreported⟩ := hreopened.restored hcovered hfree
    refine ⟨failure, e', hfailed, .nothing (fun hwastes => ?_) (fun hcollides => ?_) hrestored
      hwithdrawing hreported⟩
    · -- an empty message has no room for the token, which is not empty
      have hempty := List.isEmpty_iff.mp (hroom hwastes.1)
      rw [hempty] at hlength
      exact absurd hcovered.length_pos (by rw [← hlength]; exact Nat.lt_irrefl 0)
    · exact absurd hnone (by rw [hcollides.1]; exact Bool.false_ne_true)
  | given hsome =>
    obtain ⟨failure, e', hfailed, hreopened⟩ := reopened_of_sendOrClose h
    refine ⟨failure, e', hfailed, ?_⟩
    by_cases hreserved : e.Reserves ⟨peer, m.token⟩
    · rw [TokenPool.reserve_of_taken hreserved] at hreopened
      exact .less ⟨hsome, hreserved⟩ hreopened
    · obtain ⟨hrestored, hwithdrawing, hreported⟩ :=
        Reopened.restored hcovered hreserved hreopened
      refine .nothing (fun hwastes => ?_) (fun hcollides => hreserved hcollides.2) hrestored
        hwithdrawing hreported
      exact absurd hwastes.2.1 (by rw [hsome]; exact Bool.false_ne_true)
  | exhausted hnone hfailed =>
    refine ⟨_, _, rfl, .nothing (fun hwastes => ?_) (fun hcollides => ?_) ⟨fun _ => rfl,
      fun _ => rfl⟩ rfl rfl⟩
    · obtain ⟨-, -, token, hdrawn⟩ := hwastes
      exact nomatch hfailed.symm.trans hdrawn
    · exact absurd hnone (by rw [hcollides.1]; exact Bool.false_ne_true)
  | @wasted token bytes fault hnone hempty hdrawn hfree =>
    exact ⟨_, _, rfl, .token ⟨hempty, hnone, token, hdrawn⟩ hfree⟩

namespace Leaves

/-- Everything is as before exactly if no token was wasted and no conversation was replaced. -/
theorem restored_iff (h : Leaves e peer m e') :
    Restored e e' ↔ ¬ e.Wastes peer m ∧ ¬ e.Collides peer m := by
  cases h with
  | nothing hwastes hcollides hrestored => exact ⟨fun _ => ⟨hwastes, hcollides⟩, fun _ => hrestored⟩
  | token hwastes hfree =>
    refine ⟨fun hrestored => absurd ?_ hfree, fun hclean => absurd hwastes hclean.1⟩
    rw [Reserves, ← hrestored.taken]
    exact TokenPool.mem_taken_reserve.mpr (.inr ⟨rfl, rfl⟩)
  | less hcollides hreopened =>
    refine ⟨fun hrestored => absurd hcollides.2 ?_, fun hclean => absurd hcollides hclean.2⟩
    rw [Reserves, ← hrestored.taken, hreopened.tokens]
    exact fun hin => (TokenPool.mem_taken_release.mp hin).2 ⟨rfl, rfl⟩

/-- Nobody is told anything, except one who waits for the result of an earlier request under
the token. -/
theorem reportsTo (h : Leaves e peer m e') (name : String) :
    ∃ earlier, e'.reportsTo name = e.reportsTo name ++ earlier ∧
      (earlier = [] ∨ earlier = [.result (.error .shutDown)] ∧ e.Collides peer m ∧
        ∃ c, e.conversations.get? ⟨peer, m.token⟩ = some c ∧ c.Listens name ∧
          c.requester.interest = .awaiting) := by
  cases h with
  | nothing _ _ _ _ hreported =>
    exact ⟨[], by rw [reportsTo_congr hreported, List.append_nil], .inl rfl⟩
  | token => exact ⟨[], (List.append_nil _).symm, .inl rfl⟩
  | less hcollides hreopened =>
    rw [reportsTo_congr hreopened.reported]
    cases hc : e.conversations.get? ⟨peer, m.token⟩ with
    | none =>
      rw [dropConversation_of_none hc]
      exact ⟨[], (List.append_nil _).symm, .inl rfl⟩
    | some c =>
      rw [reportsTo_dropConversation hc]
      refine ⟨_, rfl, ?_⟩
      split
      · next hwaits => exact .inr ⟨rfl, hcollides, c, rfl, hwaits⟩
      · exact .inl rfl

/-- Where nobody has to withdraw, nothing more happens to the books afterwards, and nobody is
told anything more. -/
theorem settle (h : Leaves e peer m e') (hidle : e.withdrawing = []) {told : Engine}
    {failure : SendFailure} (htold : told = e'.reportUnsent peer r failure) :
    Restored told told.settle ∧ told.settle.reported = told.reported := by
  subst htold
  let told := e'.reportUnsent peer r failure
  have hstill (hnone : e'.withdrawing = []) :
      Restored told told.settle ∧ told.settle.reported = told.reported := by
    have htold : told.withdrawing = [] := hnone
    rw [settle_of_idle htold]
    exact ⟨⟨fun _ => rfl, fun _ => rfl⟩, rfl⟩
  cases h with
  | nothing _ _ _ hwithdrawing => exact hstill (hwithdrawing.trans hidle)
  | token => exact hstill hidle
  | less _ hreopened =>
    have hpending := withdrawing_dropConversation e ⟨peer, m.token⟩
    rw [← hreopened.withdrawing, hidle] at hpending
    rcases hpending with hnone | hone
    · exact hstill hnone
    · have hclosed : told.conversations.get? ⟨peer, m.token⟩ = none :=
        (hreopened.conversations _).trans (if_pos rfl)
      obtain ⟨hconversations, htokens, hreported⟩ := settle_of_closed hclosed hone
      refine ⟨⟨fun k => by rw [hconversations], fun p => ?_⟩, hreported⟩
      have hagain : told.tokens = e.tokens.release peer m.token := hreopened.tokens
      rw [htokens, hagain]
      exact TokenPool.taken_release_release _ _ _ _

end Leaves

/-- To be restored is to be restored step by step. -/
theorem Restored.trans {e'' : Engine} (h : Restored e e') (h' : Restored e' e'') :
    Restored e e'' :=
  ⟨fun k => (h'.conversations k).trans (h.conversations k),
    fun p => (h'.taken p).trans (h.taken p)⟩

/-- It does not matter which of both is the earlier one. -/
theorem Restored.symm (h : Restored e e') : Restored e' e :=
  ⟨fun k => (h.conversations k).symm, fun p => (h.taken p).symm⟩

/-! ## From the beginning -/

/-- **What is left of a request that does not go out.**  Whatever has happened to a node, if a
request does not go out its requester is told of one failure, and nobody else of anything but
one who waits for the result of an earlier request under the same token.  The open
conversations and the tokens in use are those from before if and only if no token was made up
for a message that has no room for it, and the token that the message brought was not in use
with the peer.  This is so before the requesters that have their results withdraw, and where
none has to, also after that. -/
theorem restored_iff_of_unsent (c : Config) (chances : Chances) (service : Service)
    (resources : List (String × Resource)) (events : List Event) (peer : Endpoint) (m : Message)
    (r : Requester) :
    let e := (start c chances service resources).run events
    let tried := (e.attempt peer m r).2
    e.submit peer m r = ((e.attempt peer m r).1, tried.settle) ∧
    ((e.submit peer m r).1 = none →
      ∀ e', e' = tried ∨ e.withdrawing = [] ∧ e' = (e.submit peer m r).2 →
        (Restored e e' ↔ ¬ e.Wastes peer m ∧ ¬ e.Collides peer m) ∧
        ∃ failure, ∀ name, ∃ earlier, e'.reportsTo name = e.reportsTo name ++ earlier ++
            (if r.name = name then [r.worded (.failed failure) (.error failure)] else []) ∧
          (earlier = [] ∨ earlier = [.result (.error .shutDown)] ∧ e.Collides peer m ∧
            ∃ c, e.conversations.get? ⟨peer, m.token⟩ = some c ∧ c.Listens name ∧
              c.requester.interest = .awaiting)) := by
  intro e tried
  refine ⟨submit_eq e peer m r, fun hfailed e' he' => ?_⟩
  have hcovered : e.Covered := (covered_start c chances service resources).run events
  rw [submit_eq] at hfailed
  obtain ⟨failure, left, htried, hleaves⟩ := leaves hcovered hfailed
  have hsame : Restored tried e' ∧ e'.reported = tried.reported := by
    rcases he' with rfl | ⟨hidle, rfl⟩
    · exact ⟨⟨fun _ => rfl, fun _ => rfl⟩, rfl⟩
    · rw [submit_eq]
      exact hleaves.settle hidle htried
  have hleft : Restored left tried := by
    rw [show tried = _ from htried]
    exact ⟨fun _ => rfl, fun _ => rfl⟩
  have hleft' := hleft.trans hsame.1
  refine ⟨?_, failure, fun name => ?_⟩
  · rw [← hleaves.restored_iff]
    exact ⟨fun h => h.trans hleft'.symm, fun h => h.trans hleft'⟩
  · obtain ⟨earlier, hearlier, hwho⟩ := hleaves.reportsTo name
    refine ⟨earlier, ?_, hwho⟩
    rw [reportsTo_congr hsame.2, show tried = _ from htried]
    unfold reportUnsent
    rw [reportsTo_note_reported, hearlier]
    rfl

/-- A request that finds the outbox closed leaves the one before it alone. -/
theorem restored_of_outbox_closed :
    let peer : Endpoint := ⟨1⟩
    let request (token : Token) : Message :=
      { type := .confirmable, code := .request .get, id := 0, token }
    let second := request ⟨[2], by decide⟩
    let chances : Chances :=
      ⟨.constant 1000, .constant (.ofNat 100), .constant 7, .constant 0⟩
    let events : List Event :=
      [.submit peer (request ⟨[1], by decide⟩) ⟨"first", .full⟩, .closeOutbox]
    let e := (start .standard chances (fun _ => { reaction := .hold }) []).run events
    let e' := (e.submit peer second ⟨"second", .plain⟩).2
    (e.submit peer second ⟨"second", .plain⟩).1 = none ∧
    (e.withdrawing = [] ∧ ¬ e.Collides peer second) ∧
    Restored e e' ∧ e'.tokens.taken peer = [⟨[1], by decide⟩] ∧
    e'.reportsTo "second" = [.failed .outboxClosed] := by
  intro peer request second chances events e e'
  have hfailed : (e.submit peer second ⟨"second", .plain⟩).1 = none := by decide +kernel
  have hidle : e.withdrawing = [] := by decide +kernel
  have hcollides : ¬ e.Collides peer second := by decide +kernel
  obtain ⟨-, hleft⟩ := restored_iff_of_unsent .standard chances (fun _ => { reaction := .hold }) []
    events peer second ⟨"second", .plain⟩
  obtain ⟨hrestored, -⟩ := hleft hfailed e' (.inr ⟨hidle, rfl⟩)
  exact ⟨hfailed, ⟨hidle, hcollides⟩,
    hrestored.mpr ⟨fun hwastes => absurd hwastes.1 (by decide), hcollides⟩, by decide +kernel,
    by decide +kernel⟩

/-- **What is left behind.**  An empty message that is submitted as a request goes nowhere,
but the token that was made up for it stays in use; and a request that finds the outbox closed
ends the earlier one under its token. -/
theorem left_behind_by_unsent :
    let peer : Endpoint := ⟨1⟩
    let ping : Message := { type := .confirmable, code := .empty, id := 0 }
    let request : Message :=
      { type := .confirmable, code := .request .get, id := 0, token := ⟨[1], by decide⟩ }
    let chances : Chances :=
      ⟨.constant 1000, .constant (.ofNat 100), .constant 7, .constant 0⟩
    let fresh := start (Config.standard.withTokenLength 1) chances
      (fun _ => { reaction := .hold }) []
    let busy := fresh.run [.submit peer request ⟨"first", .full⟩, .closeOutbox]
    ((fresh.submit peer ping ⟨"empty", .full⟩).1 = none ∧
      fresh.tokens.taken peer = [] ∧
      (fresh.submit peer ping ⟨"empty", .full⟩).2.tokens.taken peer = [⟨[7], by decide⟩]) ∧
    (busy.submit peer request ⟨"second", .full⟩).1 = none ∧
      busy.Converses ⟨peer, request.token⟩ ∧
      ¬ (busy.submit peer request ⟨"second", .full⟩).2.Converses ⟨peer, request.token⟩ := by
  intro peer ping request chances fresh busy
  unfold Converses
  refine ⟨⟨?_, ?_, ?_⟩, ?_, ?_, ?_⟩ <;> decide +kernel

end Coap.Engine
