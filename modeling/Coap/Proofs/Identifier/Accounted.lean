/-
# Accounts of message IDs in step

The parts of an account agree with each other: the queue holds the IDs before the next one, in
the order in which they were issued, and those in use are the ones in the queue.  From this
follows what no part says by itself.  An ID that expires at the front of the queue is in use only
there, so that it may be struck off; and the next ID is free as long as any is.

A pool keeps of all this the next ID and the times alone.  That is enough: an account and the part
of the pool for its peer stand for each other after every step, and so the history of a pool tells
what is issued from the accounts.
-/
import Coap.Identifier.Accounts
import Coap.Proofs.Identifier.Issued

namespace Coap

/-! ## Searching for a free ID -/

namespace IdAccount

variable {inUse : Finset MessageId} {id found free : MessageId}

/-- From a free ID the search does not go on. -/
theorem search_of_free (h : id ∉ inUse) : search inUse id = .some id := by
  apply Part.eq_some_iff.mpr
  apply PFun.fix_stop
  rw [probe, if_neg h]
  exact Part.mem_some _

/-- From an ID in use the search goes on to the next one. -/
theorem search_of_taken (h : id ∈ inUse) : search inUse id = search inUse (id + 1) := by
  apply PFun.fix_fwd_eq
  rw [probe, if_pos h]
  exact Part.mem_some _

/-- What the search finds is free. -/
theorem not_mem_of_search (h : search inUse id = .some found) : found ∉ inUse := by
  have hfound : found ∈ search inUse id := Part.eq_some_iff.mp h
  -- along the search; only its last step says anything about what is found
  refine PFun.fixInduction' hfound (fun last hlast => ?_) (fun _ _ _ _ hnext => hnext)
  have hprobe : Sum.inl found = probe inUse last := Part.mem_some_iff.mp hlast
  rw [probe] at hprobe
  split at hprobe
  · cases hprobe
  · next hfree =>
    cases hprobe
    exact hfree

/-- A free ID a few steps further up puts an end to the search. -/
theorem exists_search_of_add (hfree : free ∉ inUse) (n : Nat) :
    ∀ id, id + UInt16.ofNat n = free → ∃ found, search inUse id = .some found := by
  induction n with
  | zero =>
    intro id hsteps
    have hsame : id = free := (UInt16.add_zero id).symm.trans hsteps
    exact ⟨id, search_of_free (hsame ▸ hfree)⟩
  | succ n ih =>
    intro id hsteps
    by_cases htaken : id ∈ inUse
    · have hnext : id + 1 + UInt16.ofNat n = free := by
        rw [← hsteps, UInt16.ofNat_add, UInt16.add_comm (UInt16.ofNat n), ← UInt16.add_assoc]
        rfl
      rw [search_of_taken htaken]
      exact ih (id + 1) hnext
    · exact ⟨id, search_of_free htaken⟩

/-- **The search ends exactly if some ID is free**, wherever it begins. -/
theorem exists_search_iff (inUse : Finset MessageId) (id : MessageId) :
    (∃ found, search inUse id = .some found) ↔ ∃ free, free ∉ inUse := by
  constructor
  · rintro ⟨found, hfound⟩
    exact ⟨found, not_mem_of_search hfound⟩
  · rintro ⟨free, hfree⟩
    apply exists_search_of_add hfree (free - id).toNat
    rw [UInt16.ofNat_toNat, UInt16.add_comm, UInt16.sub_add_cancel]

/-- Of 65536 IDs one is free if fewer are in use. -/
theorem exists_free (h : inUse.card < 65536) : ∃ free, free ∉ inUse := by
  by_contra hnone
  have hall : Finset.range 65536 ⊆ inUse.image UInt16.toNat := by
    intro n hn
    have hsame : (UInt16.ofNat n).toNat = n := by
      rw [UInt16.toNat_ofNat']
      exact Nat.mod_eq_of_lt (Finset.mem_range.mp hn)
    exact Finset.mem_image.mpr ⟨UInt16.ofNat n, by simpa using not_exists.mp hnone _, hsame⟩
  have hcard := (Finset.card_le_card hall).trans Finset.card_image_le
  rw [Finset.card_range] at hcard
  exact Nat.not_lt_of_le hcard h

/-- **A call comes to an end**, whatever the account says: it searches only if there is room. -/
theorem exists_issue (a : IdAccount) (now : Instant) (lifetime : Duration) :
    ∃ x, a.issue now lifetime = .some x := by
  rw [issue]
  by_cases hfull : (a.retire now).inUse.card > 65535
  · exact ⟨_, if_pos hfull⟩
  · have hroom : (a.retire now).inUse.card < 65536 := by omega
    obtain ⟨found, hfound⟩ :=
      (exists_search_iff (a.retire now).inUse (a.retire now).next).mpr (exists_free hroom)
    simp only [if_neg hfull, hfound, Part.map_some]
    exact ⟨_, rfl⟩

end IdAccount

/-! ## The IDs before another one -/

namespace MessageId

variable {next id : MessageId} {n : Nat} {ids : List MessageId}

/-- The `n` IDs before another one, in the order in which they are issued. -/
def before (next : MessageId) (n : Nat) : List MessageId :=
  (List.range n).reverse.map fun k => next - UInt16.ofNat (k + 1)

@[simp] theorem length_before (next : MessageId) (n : Nat) : (before next n).length = n := by
  simp [before]

/-- One ID more is one at the front. -/
theorem before_succ (next : MessageId) (n : Nat) :
    before next (n + 1) = (next - UInt16.ofNat (n + 1)) :: before next n := by
  simp [before, List.range_succ]

/-- The next ID comes behind those before it. -/
theorem before_add_one (next : MessageId) (n : Nat) :
    before (next + 1) (n + 1) = before next n ++ [next] := by
  have hshift (k : Nat) : next + 1 - UInt16.ofNat (k + 1 + 1) = next - UInt16.ofNat (k + 1) := by
    rw [UInt16.ofNat_add (k + 1)]
    grind
  rw [before, List.range_succ_eq_map, List.reverse_cons, List.map_append, ← List.map_reverse,
    List.map_map, before]
  congr 1
  · apply List.map_congr_left
    intro k _
    exact hshift k
  · simp

/-- What is left of the IDs before another one, when the first of them are dropped, are the IDs
before it again. -/
theorem eq_before_of_suffix (h : ids <:+ before next n) : ids = before next ids.length := by
  induction n with
  | zero =>
    have hnone : ids = [] := List.suffix_nil.mp h
    rw [hnone]
    rfl
  | succ n ih =>
    rw [before_succ] at h
    rcases List.suffix_cons_iff.mp h with hall | hrest
    · rw [hall, ← before_succ, length_before]
    · exact ih hrest

/-- As long as they do not go round, the IDs before another one are distinct. -/
theorem nodup_before (next : MessageId) (h : n ≤ 65536) : (before next n).Nodup := by
  rw [before, List.nodup_map_iff_inj_on (List.nodup_reverse.mpr List.nodup_range)]
  intro j hj k hk hsame
  have hless {i : Nat} (hi : i ∈ (List.range n).reverse) : i < 65536 :=
    Nat.lt_of_lt_of_le (List.mem_range.mp (List.mem_reverse.mp hi)) h
  have hsteps : UInt16.ofNat j = UInt16.ofNat k := by
    rw [UInt16.ofNat_add, UInt16.ofNat_add] at hsame
    grind
  have hnat := congrArg UInt16.toNat hsteps
  rwa [UInt16.toNat_ofNat', UInt16.toNat_ofNat', Nat.mod_eq_of_lt (hless hj),
    Nat.mod_eq_of_lt (hless hk)] at hnat

/-- An ID is not among those before it, as long as there are not 65536 of them. -/
theorem not_mem_before (next : MessageId) (h : n < 65536) : next ∉ before next n := by
  have hnodup : (before (next + 1) (n + 1)).Nodup := nodup_before (next + 1) h
  rw [before_add_one] at hnodup
  intro hmem
  exact (List.nodup_append.mp hnodup).2.2 next hmem next (List.mem_singleton_self _) rfl

end MessageId

/-! ## An account in step -/

namespace IdAccount

/-- The parts of an account agree: the queue holds the IDs before the next one, at most all of
them, and those in use are the ones in the queue. -/
structure InStep (a : IdAccount) : Prop where
  consecutive : a.expiries.map (·.2) = MessageId.before a.next a.expiries.length
  inUse_eq : a.inUse = (a.expiries.map (·.2)).toFinset
  length_le : a.expiries.length ≤ 65536

variable {a : IdAccount} {id : MessageId} {now expiry : Instant} {lifetime : Duration}

/-- An account without IDs is in step. -/
theorem inStep_startingAt (first : MessageId) : (startingAt first).InStep where
  consecutive := rfl
  inUse_eq := rfl
  length_le := Nat.zero_le _

/-- No ID is in the queue twice. -/
theorem InStep.nodup (h : a.InStep) : (a.expiries.map (·.2)).Nodup := by
  rw [h.consecutive]
  exact MessageId.nodup_before a.next h.length_le

/-- As many IDs are in use as there are in the queue. -/
theorem InStep.card_inUse (h : a.InStep) : a.inUse.card = a.expiries.length := by
  rw [h.inUse_eq, List.toFinset_card_of_nodup h.nodup, List.length_map]

/-- **The next ID is free as long as any is**, so that the search ends where it begins. -/
theorem InStep.search_next (h : a.InStep) (hroom : a.inUse.card < 65536) :
    search a.inUse a.next = .some a.next := by
  apply search_of_free
  rw [h.card_inUse] at hroom
  rw [h.inUse_eq, List.mem_toFinset, h.consecutive]
  exact MessageId.not_mem_before a.next hroom

/-- Striking off the IDs of some entries one by one leaves the others. -/
theorem foldl_erase (entries : List (Instant × MessageId)) (used : Finset MessageId) :
    entries.foldl (fun used x => used.erase x.2) used =
      used \ (entries.map (·.2)).toFinset := by
  induction entries generalizing used with
  | nil => simp
  | cons x rest ih =>
    rw [List.foldl_cons, ih, List.map_cons, List.toFinset_cons, Finset.sdiff_insert,
      Finset.erase_sdiff_comm]

/-- What has expired leaves the queue and those in use alike. -/
theorem InStep.retire (h : a.InStep) (now : Instant) : (a.retire now).InStep := by
  have hsplit := List.takeWhile_append_dropWhile (p := fun x => decide (x.1 ≤ now))
    (l := a.expiries)
  have hsuffix : (a.retire now).expiries <:+ a.expiries := List.dropWhile_suffix _
  refine ⟨?_, ?_, hsuffix.length_le.trans h.length_le⟩
  · have hids : (a.retire now).expiries.map (·.2) <:+ a.expiries.map (·.2) := hsuffix.map _
    rw [h.consecutive] at hids
    exact (MessageId.eq_before_of_suffix hids).trans (by rw [List.length_map]; rfl)
  · have hnodup := h.nodup
    rw [← hsplit, List.map_append] at hnodup
    have hapart : Disjoint ((a.expiries.takeWhile fun x => decide (x.1 ≤ now)).map (·.2)).toFinset
        ((a.expiries.dropWhile fun x => decide (x.1 ≤ now)).map (·.2)).toFinset :=
      List.disjoint_toFinset_iff_disjoint.mpr (List.disjoint_of_nodup_append hnodup)
    show List.foldl _ a.inUse _ = _
    rw [foldl_erase, h.inUse_eq]
    nth_rewrite 1 [← hsplit]
    rw [List.map_append, List.toFinset_append, Finset.union_sdiff_cancel_left hapart]
    rfl

/-- **What a call gives and leaves**, if the account is in step: the next ID, unless all are in
use. -/
theorem InStep.issue_eq (h : a.InStep) (now : Instant) (lifetime : Duration) :
    a.issue now lifetime =
      let left := a.retire now
      .some (if left.expiries.length < 65536 then
        (some a.next, ⟨a.next + 1, insert a.next left.inUse,
          left.expiries ++ [(now + lifetime, a.next)]⟩)
      else (none, left)) := by
  have hleft := h.retire now
  have hcard := hleft.card_inUse
  rw [issue]
  by_cases hroom : (a.retire now).expiries.length < 65536
  · have hnext : search (a.retire now).inUse (a.retire now).next = .some a.next :=
      hleft.search_next (hcard ▸ hroom)
    simp only [if_neg (show ¬ (a.retire now).inUse.card > 65535 by omega), if_pos hroom, hnext]
    rfl
  · simp only [if_pos (show (a.retire now).inUse.card > 65535 by omega), if_neg hroom]

/-- An ID that is issued is entered in the queue and in those in use alike. -/
theorem InStep.enter (h : a.InStep) (hroom : a.expiries.length < 65536) (expiry : Instant) :
    InStep ⟨a.next + 1, insert a.next a.inUse, a.expiries ++ [(expiry, a.next)]⟩ := by
  refine ⟨?_, ?_, ?_⟩
  · rw [List.map_append, h.consecutive, List.length_append]
    exact (MessageId.before_add_one a.next a.expiries.length).symm
  · rw [List.map_append, List.toFinset_append, ← h.inUse_eq, Finset.insert_eq,
      Finset.union_comm]
    rfl
  · rw [List.length_append]
    exact hroom

/-! ## An account and its part of a pool -/

/-- An account is in step, and the IDs that a pool keeps for its peer have the same next one and
the same times. -/
structure Agrees (a : IdAccount) (s : IssuedIds) : Prop where
  inStep : a.InStep
  next_eq : s.next = a.next
  expiries_eq : s.expiries.toList = a.expiries.map (·.1)

variable {s : IssuedIds}

theorem agrees_startingAt (first : MessageId) :
    (startingAt first).Agrees (IssuedIds.startingAt first) :=
  ⟨inStep_startingAt first, rfl, rfl⟩

/-- As many IDs are in use in both. -/
theorem Agrees.inUse_eq (h : a.Agrees s) : s.inUse = a.inUse.card := by
  rw [IssuedIds.inUse, Queue.size_eq_length, h.expiries_eq, List.length_map, h.inStep.card_inUse]

/-- The same IDs expire in both. -/
theorem Agrees.retire (h : a.Agrees s) (now : Instant) :
    (a.retire now).Agrees (s.retire now) where
  inStep := h.inStep.retire now
  next_eq := h.next_eq
  expiries_eq := by
    rw [IssuedIds.retire, Queue.toList_dropWhile, h.expiries_eq, List.dropWhile_map]
    rfl

/-- **Both issue the same ID**, and agree afterwards. -/
theorem Agrees.issue (h : a.Agrees s) (now : Instant) (lifetime : Duration) :
    ∃ left, a.issue now lifetime = .some ((s.issue now lifetime).1, left) ∧
      left.Agrees (s.issue now lifetime).2 := by
  have hleft := h.retire now
  have hinUse : (s.retire now).inUse = (a.retire now).expiries.length :=
    hleft.inUse_eq.trans hleft.inStep.card_inUse
  rw [h.inStep.issue_eq, IssuedIds.issue_eq, hinUse]
  dsimp only
  by_cases hroom : (a.retire now).expiries.length < 65536
  · rw [if_pos hroom, if_pos hroom, h.next_eq]
    refine ⟨_, rfl, hleft.inStep.enter hroom (now + lifetime), rfl, ?_⟩
    rw [Queue.toList_push, hleft.expiries_eq, List.map_append]
    rfl
  · rw [if_neg hroom, if_neg hroom]
    exact ⟨_, rfl, hleft⟩

/-- A place in the queue of times is that of an entry. -/
theorem Agrees.reserves_iff (h : a.Agrees s) : s.Reserves id expiry ↔ (expiry, id) ∈ a.expiries := by
  -- where an entry stands in the queue tells its ID
  have hplace (before after : List (Instant × MessageId)) (x : Instant × MessageId)
      (hqueue : a.expiries = before ++ x :: after) :
      x.2 + UInt16.ofNat (after.length + 1) = a.next := by
    have hids : (x :: after).map (·.2) <:+ a.expiries.map (·.2) :=
      (hqueue ▸ List.suffix_append before (x :: after)).map _
    rw [h.inStep.consecutive] at hids
    have hhead := MessageId.eq_before_of_suffix hids
    rw [List.length_map, List.length_cons, MessageId.before_succ, List.map_cons] at hhead
    rw [(List.cons.inj hhead).1, UInt16.sub_add_cancel]
  constructor
  · rintro ⟨before, after, htimes, hid⟩
    rw [h.expiries_eq] at htimes
    obtain ⟨front, back, hqueue, -, hback⟩ := List.map_eq_append_iff.mp htimes
    obtain ⟨x, rest, rfl, rfl, hrest⟩ := List.map_eq_cons_iff.mp hback
    have hsame := hplace front rest x hqueue
    rw [← hrest, List.length_map, h.next_eq, ← hsame] at hid
    rw [hqueue, UInt16.add_left_inj _ |>.mp hid]
    exact List.mem_append_right _ List.mem_cons_self
  · intro hmem
    obtain ⟨before, after, hqueue⟩ := List.append_of_mem hmem
    refine ⟨before.map (·.1), after.map (·.1), ?_, ?_⟩
    · rw [h.expiries_eq, hqueue, List.map_append]
      rfl
    · rw [List.length_map, h.next_eq]
      exact hplace before after _ hqueue

/-- The IDs in use in an account, but for what has expired, are those whose time has not come. -/
theorem Agrees.mem_inUse_iff {latest : Instant} (h : a.Agrees s) (hordered : s.Ordered latest) :
    id ∈ (a.retire now).inUse ↔ ∃ expiry, now < expiry ∧ s.Reserves id expiry := by
  have hretired := h.retire now
  rw [hretired.inStep.inUse_eq, List.mem_toFinset, List.mem_map]
  constructor
  · rintro ⟨⟨expiry, _⟩, hmem, rfl⟩
    refine ⟨expiry, hordered.lt_of_mem_retire ?_, (hretired.reserves_iff.mpr hmem).of_retire⟩
    rw [hretired.expiries_eq]
    exact List.mem_map_of_mem hmem
  · rintro ⟨expiry, hnow, hreserves⟩
    exact ⟨(expiry, id), hretired.reserves_iff.mp (hreserves.retire hnow), rfl⟩

end IdAccount

/-! ## All accounts -/

namespace IdAccounts

open MessageIdPool (Event History Issuance InUse Unrepeated)

/-- The accounts and a pool agree about every peer. -/
structure Agrees (s : IdAccounts) (pool : MessageIdPool) : Prop where
  lifetime_eq : pool.lifetime = s.lifetime
  firstIds_eq : pool.firstIds = s.firstIds
  peers : ∀ peer, Option.Rel IdAccount.Agrees (s.peers.get? peer) (pool.peers.get? peer)

/-- What an event issues and leaves, if it comes to an end. -/
def step (s : IdAccounts) (now : Instant) : Event → Part (List Issuance × IdAccounts)
  | .issue peer =>
    (s.issue now peer).map fun (result, s) =>
      match result with
      | .ok id => ([⟨now, peer, id⟩], s)
      | .error _ => ([], s)
  | .purge => .some ([], s.purge now)

/-- What a history issues and leaves, if all of it comes to an end. -/
def run (s : IdAccounts) : History → Part (List Issuance × IdAccounts)
  | [] => .some ([], s)
  | (t, event) :: rest =>
    (s.step t event).bind fun (issued, s) =>
      (run s rest).map fun (others, s) => (issued ++ others, s)

variable {s left : IdAccounts} {pool : MessageIdPool} {peer : Endpoint} {id : MessageId}
  {now : Instant} {account : IdAccount} {history : History} {log : List Issuance}

theorem agrees_start (lifetime : Duration) (firstIds : Draws MessageId) :
    Agrees { lifetime, firstIds } { lifetime, firstIds } :=
  ⟨rfl, rfl, fun _ => .none⟩

/-- The account that an ID is issued from, and the first IDs that are left then. -/
def accountOf (s : IdAccounts) (peer : Endpoint) : IdAccount × Draws MessageId :=
  match s.peers.get? peer with
  | some account => (account, s.firstIds)
  | none => (.startingAt s.firstIds.next.1, s.firstIds.next.2)

theorem issue_eq (s : IdAccounts) (now : Instant) (peer : Endpoint) :
    s.issue now peer = ((s.accountOf peer).1.issue now s.lifetime).map fun x =>
      (x.1.elim (.error .messageIds) .ok,
        { s with firstIds := (s.accountOf peer).2, peers := s.peers.insert peer x.2 }) := by
  unfold issue accountOf
  cases s.peers.get? peer <;> rfl

theorem firstIds_issue (pool : MessageIdPool) (now : Instant) (peer : Endpoint) :
    (pool.issue now peer).2.firstIds =
      match pool.peers.get? peer with
      | some _ => pool.firstIds
      | none => pool.firstIds.next.2 := by
  rw [MessageIdPool.issue]
  cases pool.peers.get? peer <;> dsimp only <;> split <;> rfl

/-- **Accounts and pool issue the same IDs**, and agree afterwards. -/
theorem Agrees.issue (h : s.Agrees pool) (now : Instant) (peer : Endpoint) :
    ∃ left, s.issue now peer = .some ((pool.issue now peer).1, left) ∧
      left.Agrees (pool.issue now peer).2 := by
  have haccount : (s.accountOf peer).1.Agrees (pool.issuedFor peer) ∧
      (pool.issue now peer).2.firstIds = (s.accountOf peer).2 := by
    have hpeer := h.peers peer
    rw [accountOf, MessageIdPool.issuedFor, firstIds_issue, h.firstIds_eq]
    generalize s.peers.get? peer = account? at hpeer ⊢
    generalize pool.peers.get? peer = issued? at hpeer ⊢
    cases hpeer with
    | none => exact ⟨IdAccount.agrees_startingAt _, rfl⟩
    | some hagrees => exact ⟨hagrees, rfl⟩
  obtain ⟨left, hissue, hleft⟩ := haccount.1.issue now s.lifetime
  rw [issue_eq, hissue, Part.map_some, MessageIdPool.issue_fst, h.lifetime_eq]
  refine ⟨_, rfl, ?_, haccount.2, fun p => ?_⟩
  · exact (MessageIdPool.lifetime_issue pool now peer).trans h.lifetime_eq
  · rw [MessageIdPool.peers_issue, Table.get?_insert, Table.get?_insert, h.lifetime_eq]
    split
    · exact .some hleft
    · exact h.peers p

/-- The same peers are forgotten in both. -/
theorem Agrees.purge (h : s.Agrees pool) (now : Instant) :
    (s.purge now).Agrees (pool.purge now) := by
  refine ⟨h.lifetime_eq, h.firstIds_eq, fun peer => ?_⟩
  have hpeer := h.peers peer
  rw [MessageIdPool.get?_purge, IdAccounts.purge, Table.get?_filter, Table.get?_mapValues]
  generalize s.peers.get? peer = account? at hpeer ⊢
  generalize pool.peers.get? peer = issued? at hpeer ⊢
  cases hpeer with
  | none => exact .none
  | @some account issued hagrees =>
    have hretired := hagrees.retire now
    have hsame : (issued.retire now).inUse ≠ 0 ↔ (account.retire now).inUse ≠ ∅ := by
      rw [hretired.inUse_eq, Finset.card_ne_zero, Finset.nonempty_iff_ne_empty]
    rw [Option.map_some, Option.map_some, Option.filter_some, Option.filter_some]
    by_cases hused : (account.retire now).inUse ≠ ∅
    · rw [if_pos (decide_eq_true hused), if_pos (bne_iff_ne.mpr (hsame.mpr hused))]
      exact .some hretired
    · rw [if_neg (by simpa using hused), if_neg (mt (fun h => hsame.mp (bne_iff_ne.mp h)) hused)]
      exact .none

theorem Agrees.step (h : s.Agrees pool) (now : Instant) (event : Event) :
    ∃ left, s.step now event = .some ((pool.issuance? now event).toList, left) ∧
      left.Agrees (pool.step now event) := by
  cases event with
  | issue peer =>
    obtain ⟨left, hissue, hleft⟩ := h.issue now peer
    refine ⟨left, ?_, hleft⟩
    rw [IdAccounts.step, hissue, Part.map_some, MessageIdPool.issuance?]
    cases (pool.issue now peer).1 <;> rfl
  | purge => exact ⟨_, rfl, h.purge now⟩

/-- **Accounts and pool agree throughout**: every history comes to an end, and the same IDs are
issued in it. -/
theorem Agrees.run (h : s.Agrees pool) (history : History) :
    ∃ left, s.run history = .some (pool.issuances history, left) ∧
      left.Agrees (pool.run history) := by
  induction history generalizing s pool with
  | nil => exact ⟨s, rfl, h⟩
  | cons e rest ih =>
    obtain ⟨t, event⟩ := e
    obtain ⟨next, hstep, hnext⟩ := h.step t event
    obtain ⟨left, hrest, hleft⟩ := ih hnext
    refine ⟨left, ?_, hleft⟩
    rw [IdAccounts.run, hstep]
    simp only [Part.bind_some, hrest, Part.map_some]
    rfl

/-! ## From the beginning -/

/-- Every account is in step. -/
theorem Agrees.inStep (h : s.Agrees pool) (haccount : s.peers.get? peer = some account) :
    account.InStep := by
  have hpeer := h.peers peer
  rw [haccount] at hpeer
  generalize pool.peers.get? peer = issued? at hpeer
  cases hpeer with
  | some hagrees => exact hagrees.inStep

/-- The IDs in use in an account are those issued less than a lifetime ago. -/
theorem Agrees.inUse_iff (h : s.Agrees pool) (htracks : pool.Tracks log now) (peer : Endpoint)
    (id : MessageId) :
    InUse s.lifetime log now peer id ↔
      ∃ account, s.peers.get? peer = some account ∧ id ∈ (account.retire now).inUse := by
  rw [← h.lifetime_eq, htracks.inUse_iff]
  have hordered := htracks.ordered_issuedFor peer
  have hpeer := h.peers peer
  rw [MessageIdPool.issuedFor] at hordered ⊢
  generalize s.peers.get? peer = account? at hpeer ⊢
  generalize pool.peers.get? peer = issued? at hpeer hordered ⊢
  cases hpeer with
  | none =>
    constructor
    · rintro ⟨expiry, -, hreserves⟩
      exact absurd hreserves (IssuedIds.not_reserves_startingAt _)
    · rintro ⟨account, hnone, -⟩
      cases hnone
  | @some account issued hagrees =>
    show (∃ expiry, now < expiry ∧ issued.Reserves id expiry) ↔ _
    rw [← hagrees.mem_inUse_iff hordered]
    constructor
    · intro hmem
      exact ⟨account, rfl, hmem⟩
    · rintro ⟨_, ⟨⟩, hmem⟩
      exact hmem

/-- A call that fails changes nothing, but that expired IDs are struck off the account of the
peer. -/
theorem Agrees.issue_of_error {e : Exhausted} (h : s.Agrees pool)
    (hissue : s.issue now peer = .some (.error e, left)) :
    left = { s with peers := s.peers.modify peer (·.retire now) } := by
  have hinStep : (s.accountOf peer).1.InStep := by
    rw [accountOf]
    cases haccount : s.peers.get? peer with
    | none => exact IdAccount.inStep_startingAt _
    | some account => exact h.inStep haccount
  rw [issue_eq, hinStep.issue_eq, Part.map_some, Part.some_inj] at hissue
  by_cases hroom : ((s.accountOf peer).1.retire now).expiries.length < 65536
  · rw [if_pos hroom] at hissue
    cases congrArg Prod.fst hissue
  · rw [if_neg hroom] at hissue
    obtain ⟨-, rfl⟩ := Prod.mk.inj hissue
    rw [Table.modify, accountOf]
    cases haccount : s.peers.get? peer with
    | none =>
      -- an account that is opened has room
      rw [accountOf, haccount] at hroom
      exact absurd (by decide : 0 < 65536) hroom
    | some account => rfl

/-- The accounts that are kept are those with an ID in use. -/
theorem Agrees.contains_purge (h : s.Agrees pool) (now : Instant) (peer : Endpoint) :
    (s.purge now).peers.contains peer = (pool.purge now).peers.contains peer := by
  have hpeer := (h.purge now).peers peer
  rw [Table.contains, Table.contains]
  generalize (s.purge now).peers.get? peer = account? at hpeer ⊢
  generalize (pool.purge now).peers.get? peer = issued? at hpeer ⊢
  cases hpeer with
  | none => rfl
  | some => rfl

/-- **IDs are issued once in a lifetime.**  Every history in the order of time comes to an end,
with any lifetime, any first IDs and any peers, and what is issued in it is what a pool issues.  No
ID is issued for a peer again within a lifetime.  Afterwards the parts of every account agree, and
the IDs in use in it, but for what has expired, are those issued for its peer less than a lifetime
ago.  A further call comes to an end as well.  It fails exactly if all IDs were issued for the peer
less than a lifetime ago, and then changes nothing but that expired IDs are struck off the account
of the peer; otherwise it gives an ID that was not.  No search for an ID goes on for ever, even in
an account whose parts do not agree.  When the accounts are looked through, those are kept that
have an ID in use. -/
theorem issued_once_a_lifetime (lifetime : Duration) (firstIds : Draws MessageId)
    (history : History) (now : Instant)
    (horder : (history.map (·.1) ++ [now]).Pairwise (· ≤ ·)) :
    let log := ({ lifetime, firstIds } : MessageIdPool).issuances history
    ∃ s, ({ lifetime, firstIds } : IdAccounts).run history = .some (log, s) ∧
      Unrepeated lifetime log ∧
      (∀ peer account, s.peers.get? peer = some account → account.InStep) ∧
      (∀ peer id, InUse lifetime log now peer id ↔
        ∃ account, s.peers.get? peer = some account ∧ id ∈ (account.retire now).inUse) ∧
      (∀ peer, ∃ result left, s.issue now peer = .some (result, left) ∧
        ((∃ e, result = .error e) ↔ ∀ id, InUse lifetime log now peer id) ∧
        (∀ e, result = .error e →
          left = { s with peers := s.peers.modify peer (·.retire now) }) ∧
        ∀ id, result = .ok id → ¬ InUse lifetime log now peer id) ∧
      (∀ account : IdAccount, ∃ x, account.issue now lifetime = .some x) ∧
      ∀ peer, (s.purge now).peers.contains peer = true ↔ ∃ id, InUse lifetime log now peer id := by
  intro log
  -- the pool keeps track of what it has issued, and the accounts agree with it
  obtain ⟨s, hrun, hagrees⟩ := (agrees_start lifetime firstIds).run history
  have hpast : (0 :: (history.map (·.1) ++ [now])).Pairwise (· ≤ ·) :=
    List.pairwise_cons.mpr ⟨fun t _ => Nat.zero_le t, horder⟩
  have htracks := (MessageIdPool.tracks_start lifetime firstIds).run hpast
  have hlifetime : (({ lifetime, firstIds } : MessageIdPool).run history).lifetime = lifetime :=
    MessageIdPool.lifetime_run _ history
  have hsame : s.lifetime = lifetime := hagrees.lifetime_eq.symm.trans hlifetime
  refine ⟨s, hrun, ?_, fun peer account => hagrees.inStep, ?_, ?_,
    fun account => account.exists_issue now lifetime, ?_⟩
  · rw [← hlifetime]
    exact htracks.unrepeated
  · intro peer id
    rw [← hsame]
    exact hagrees.inUse_iff htracks peer id
  · intro peer
    obtain ⟨left, hissue, -⟩ := hagrees.issue now peer
    refine ⟨_, left, hissue, ?_, ?_, ?_⟩
    · rw [MessageIdPool.issue_eq_error_iff, htracks.full_iff, hlifetime]
      rfl
    · intro e herror
      rw [herror] at hissue
      exact hagrees.issue_of_error hissue
    · intro id hissued hinUse
      rw [← hlifetime] at hinUse
      obtain ⟨expiry, hlive, hreserves⟩ := (htracks.inUse_iff peer id).mp hinUse
      exact (MessageIdPool.reserves_issuedFor_iff.mp hreserves).not_issued hlive hissued
  · intro peer
    rw [hagrees.contains_purge, htracks.contains_purge_iff, hlifetime]
    rfl

/-- The IDs for one peer go on past the last one, and those for another peer are not among them;
one of these peers is forgotten when its only ID expires. -/
theorem issued_once_past_the_last :
    let history : History := [(0, .issue ⟨2⟩), (1, .issue ⟨1⟩), (5, .issue ⟨1⟩), (9, .purge),
      (9, .issue ⟨1⟩)]
    (history.map Prod.fst ++ [10]).Pairwise (· ≤ ·) ∧
      ∃ s, ({ lifetime := 10, firstIds := .constant 65535 } : IdAccounts).run history =
          .some ([⟨0, ⟨2⟩, 65535⟩, ⟨1, ⟨1⟩, 65535⟩, ⟨5, ⟨1⟩, 0⟩, ⟨9, ⟨1⟩, 1⟩], s) ∧
        (s.purge 10).peers.contains ⟨1⟩ = true ∧
        (s.purge 10).peers.contains ⟨2⟩ = false := by
  intro history
  have horder : (history.map Prod.fst ++ [10]).Pairwise (· ≤ ·) := by decide
  have hissued : ({ lifetime := 10, firstIds := .constant 65535 } : MessageIdPool).issuances
      history = [⟨0, ⟨2⟩, 65535⟩, ⟨1, ⟨1⟩, 65535⟩, ⟨5, ⟨1⟩, 0⟩, ⟨9, ⟨1⟩, 1⟩] := by
    decide +kernel
  obtain ⟨s, hrun, -, -, -, -, -, hkept⟩ :=
    issued_once_a_lifetime 10 (.constant 65535) history 10 horder
  rw [hissued] at hrun hkept
  refine ⟨horder, s, hrun, ?_, ?_⟩
  · apply (hkept ⟨1⟩).mpr
    exact ⟨1, ⟨9, ⟨1⟩, 1⟩, by simp, rfl, rfl, by decide⟩
  · apply Bool.eq_false_iff.mpr
    intro hcontains
    obtain ⟨id, x, hx, hpeer, -, hlive⟩ := (hkept ⟨2⟩).mp hcontains
    simp only [List.mem_cons, List.not_mem_nil, or_false] at hx
    rcases hx with rfl | rfl | rfl | rfl
    · exact absurd hlive (by decide)
    all_goals cases hpeer

end IdAccounts

end Coap
