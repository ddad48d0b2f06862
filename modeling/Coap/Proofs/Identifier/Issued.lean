/-
# Histories of a pool of message IDs

IDs are issued for many peers and looked through from time to time.  What was issued when is the
whole truth about a pool: at any later time the IDs in use for a peer are those that were issued
for it less than a lifetime ago, and everything the pool does can be said in terms of them.  No ID
is issued again while it is in use, and a call fails exactly if all of them are.
-/
import Coap.Proofs.Identifier.Reserved
import Coap.Proofs.LastEvent

namespace Coap

/-! ## The IDs for one peer -/

namespace IssuedIds

/-- The expiry times come in order, and none of them is later than a given time. -/
structure Ordered (s : IssuedIds) (latest : Instant) : Prop where
  ordered : s.expiries.toList.Pairwise (· ≤ ·)
  bounded : ∀ expiry ∈ s.expiries.toList, expiry ≤ latest

variable {s : IssuedIds} {id : MessageId} {now expiry latest : Instant} {lifetime : Duration}

/-- Without times, all of them are in order. -/
theorem ordered_startingAt (first : MessageId) (latest : Instant) :
    (startingAt first).Ordered latest := by
  constructor
  · exact List.Pairwise.nil
  · intro expiry hexpiry
    exact absurd hexpiry List.not_mem_nil

/-- Without times, no ID is reserved. -/
theorem not_reserves_startingAt (first : MessageId) : ¬ (startingAt first).Reserves id expiry := by
  rintro ⟨before, after, hqueue, -⟩
  exact absurd hqueue.symm (List.append_ne_nil_of_right_ne_nil before (List.cons_ne_nil _ _))

/-- Those that are left are in order. -/
theorem Ordered.retire (h : s.Ordered latest) (now : Instant) : (s.retire now).Ordered latest := by
  have hsublist : (s.retire now).expiries.toList.Sublist s.expiries.toList := by
    rw [IssuedIds.retire, Queue.toList_dropWhile]
    exact List.dropWhile_sublist _
  constructor
  · exact h.ordered.sublist hsublist
  · intro expiry hexpiry
    exact h.bounded expiry (hsublist.subset hexpiry)

/-- Times that are in order are so up to a later one. -/
theorem Ordered.later {latest' : Instant} (h : s.Ordered latest) (hle : latest ≤ latest') :
    s.Ordered latest' :=
  ⟨h.ordered, fun expiry hexpiry => Nat.le_trans (h.bounded expiry hexpiry) hle⟩

/-- What is left after the front of the queue was dropped has not expired. -/
theorem Ordered.lt_of_mem_retire (h : s.Ordered latest)
    (hexpiry : expiry ∈ (s.retire now).expiries.toList) : now < expiry := by
  have hordered := (h.retire now).ordered
  have hkept := List.head?_dropWhile_not (fun t : Instant => decide (t ≤ now)) s.expiries.toList
  rw [IssuedIds.retire, Queue.toList_dropWhile] at hexpiry hordered
  cases hleft : s.expiries.toList.dropWhile (fun t => decide (t ≤ now)) with
  | nil =>
    rw [hleft] at hexpiry
    exact absurd hexpiry List.not_mem_nil
  | cons first rest =>
    rw [hleft] at hexpiry hordered hkept
    have hfirst : now < first := by simpa using hkept
    rcases List.mem_cons.mp hexpiry with rfl | hrest
    · exact hfirst
    · exact Nat.lt_of_lt_of_le hfirst (List.rel_of_pairwise_cons hordered hrest)

/-- What is reserved after the expired times are gone was reserved before. -/
theorem Reserves.of_retire (h : (s.retire now).Reserves id expiry) : s.Reserves id expiry := by
  obtain ⟨before, after, hqueue, hid⟩ := h
  obtain ⟨dropped, hdropped⟩ := List.dropWhile_suffix (fun t : Instant => decide (t ≤ now))
    (l := s.expiries.toList)
  rw [IssuedIds.retire, Queue.toList_dropWhile] at hqueue
  refine ⟨dropped ++ before, after, ?_, hid⟩
  rw [← hdropped, hqueue, List.append_assoc]

/-- The IDs in use after a call are those before, and the one that was issued. -/
theorem reserves_issue_iff (hnow : now < expiry) :
    (s.issue now lifetime).2.Reserves id expiry ↔
      s.Reserves id expiry ∨ (s.issue now lifetime).1 = some id ∧ expiry = now + lifetime := by
  constructor
  · intro h
    rw [issue_eq] at h ⊢
    split at h
    · next hroom =>
      rw [if_pos hroom]
      obtain ⟨before, after, hqueue, hid⟩ := h
      rw [Queue.toList_push] at hqueue
      rcases concat_eq_append_cons hqueue with ⟨-, hlast, rfl⟩ | ⟨after, rfl, hbefore⟩
      · -- the last place in the queue is that of the ID just issued
        have hnext : id + 1 = s.next + 1 := hid
        right
        constructor
        · exact congrArg some (UInt16.add_right_inj 1 |>.mp (by
            rw [UInt16.add_comm 1, UInt16.add_comm 1, hnext]))
        · exact hlast
      · left
        suffices hretired : (s.retire now).Reserves id expiry from hretired.of_retire
        refine ⟨before, after, hbefore, ?_⟩
        have hnext : id + UInt16.ofNat ((after ++ [now + lifetime]).length + 1) = s.next + 1 := hid
        rw [List.length_append, List.length_singleton, UInt16.ofNat_add, ← UInt16.add_assoc]
          at hnext
        exact UInt16.add_left_inj 1 |>.mp hnext
    · exact .inl h.of_retire
  · rintro (h | ⟨hissued, rfl⟩)
    · exact (h.issue hnow lifetime).2
    · exact reserves_of_issue hissued

/-- An ID that is issued expires behind all others. -/
theorem Ordered.issue (h : s.Ordered (now + lifetime)) :
    (s.issue now lifetime).2.Ordered (now + lifetime) := by
  have hretired := h.retire now
  rw [issue_eq]
  split
  · constructor
    · rw [Queue.toList_push]
      apply List.pairwise_append.mpr
      refine ⟨hretired.ordered, List.pairwise_singleton .., ?_⟩
      intro expiry hexpiry last hlast
      rw [List.mem_singleton.mp hlast]
      exact hretired.bounded expiry hexpiry
    · intro expiry hexpiry
      rw [Queue.toList_push] at hexpiry
      rcases List.mem_append.mp hexpiry with hold | hnew
      · exact hretired.bounded expiry hold
      · exact Nat.le_of_eq (List.mem_singleton.mp hnew)
  · exact hretired

/-- If all places are taken, then every ID has one. -/
theorem exists_reserves_of_full (hfull : 65536 ≤ s.inUse) (id : MessageId) :
    ∃ expiry ∈ s.expiries.toList, s.Reserves id expiry := by
  rw [inUse, Queue.size_eq_length] at hfull
  -- the place of the ID, counted from the end of the queue
  let n := (s.next - id - 1).toNat
  have hn : n < 65536 := UInt16.toNat_lt _
  have hplace : s.expiries.toList.length - 1 - n < s.expiries.toList.length := by omega
  have hsplit := List.take_append_drop (s.expiries.toList.length - 1 - n) s.expiries.toList
  rw [List.drop_eq_getElem_cons hplace] at hsplit
  refine ⟨_, List.getElem_mem hplace, _, _, hsplit.symm, ?_⟩
  have hlength : (s.expiries.toList.drop (s.expiries.toList.length - 1 - n + 1)).length = n := by
    rw [List.length_drop]
    omega
  rw [hlength, UInt16.ofNat_add, UInt16.ofNat_toNat]
  show id + (s.next - id - 1 + 1) = s.next
  rw [UInt16.sub_add_cancel, UInt16.add_comm, UInt16.sub_add_cancel]

/-- A peer with an ID in use has one whose time has not come. -/
theorem Ordered.exists_reserves_of_inUse (h : s.Ordered latest) (hused : (s.retire now).inUse ≠ 0) :
    ∃ id expiry, now < expiry ∧ s.Reserves id expiry := by
  rw [inUse, Queue.size_eq_length] at hused
  cases hqueue : (s.retire now).expiries.toList with
  | nil =>
    rw [hqueue] at hused
    exact absurd rfl hused
  | cons first rest =>
    have hfirst : now < first := h.lt_of_mem_retire (hqueue ▸ List.mem_cons_self)
    have hreserved : (s.retire now).Reserves (s.next - UInt16.ofNat (rest.length + 1)) first :=
      ⟨[], rest, hqueue, UInt16.sub_add_cancel ..⟩
    exact ⟨_, first, hfirst, hreserved.of_retire⟩

end IssuedIds

/-! ## Histories -/

namespace MessageIdPool

/-- What happens to a pool. -/
inductive Event
  | issue (peer : Endpoint)
  | purge

/-- What happened when. -/
abbrev History := List (Instant × Event)

/-- The pool after an event. -/
def step (pool : MessageIdPool) (now : Instant) : Event → MessageIdPool
  | .issue peer => (pool.issue now peer).2
  | .purge => pool.purge now

/-- The pool after a history. -/
def run (pool : MessageIdPool) : History → MessageIdPool
  | [] => pool
  | (t, event) :: rest => run (pool.step t event) rest

/-- An ID that was issued. -/
structure Issuance where
  time : Instant
  peer : Endpoint
  id : MessageId
deriving DecidableEq

/-- The ID that is issued at an event, if one is. -/
def issuance? (pool : MessageIdPool) (now : Instant) : Event → Option Issuance
  | .issue peer =>
    match (pool.issue now peer).1 with
    | .ok id => some ⟨now, peer, id⟩
    | .error _ => none
  | .purge => none

/-- The IDs that are issued in a history, the first one first. -/
def issuances (pool : MessageIdPool) : History → List Issuance
  | [] => []
  | (t, event) :: rest =>
    (pool.issuance? t event).toList ++ issuances (pool.step t event) rest

/-- The ID was issued for the peer less than a lifetime ago. -/
def InUse (lifetime : Duration) (log : List Issuance) (now : Instant) (peer : Endpoint)
    (id : MessageId) : Prop :=
  ∃ x ∈ log, x.peer = peer ∧ x.id = id ∧ now < x.time + lifetime

/-- No ID was issued for a peer again within the lifetime of an earlier one. -/
def Unrepeated (lifetime : Duration) (log : List Issuance) : Prop :=
  log.Pairwise fun x y => x.peer = y.peer → y.time < x.time + lifetime → x.id ≠ y.id

/-! ## A pool and what was issued from it -/

/-- What is to come: the IDs in use are those issued less than a lifetime ago, and they leave
use in order. -/
structure Tracks (pool : MessageIdPool) (log : List Issuance) (now : Instant) : Prop where
  ordered : ∀ peer issued, pool.peers.get? peer = some issued →
    issued.Ordered (now + pool.lifetime)
  reserves_iff : ∀ peer id expiry, now < expiry →
    (pool.Reserves peer id expiry ↔
      ∃ x ∈ log, x.peer = peer ∧ x.id = id ∧ x.time + pool.lifetime = expiry)
  unrepeated : Unrepeated pool.lifetime log
  past : ∀ x ∈ log, x.time ≤ now

variable {pool : MessageIdPool} {log : List Issuance} {peer p : Endpoint} {id : MessageId}
  {t now expiry : Instant} {event : Event} {history : History}

/-- What is reserved for a peer is reserved by the IDs that are kept for it. -/
theorem reserves_issuedFor_iff :
    (pool.issuedFor peer).Reserves id expiry ↔ pool.Reserves peer id expiry := by
  constructor
  · intro h
    rw [issuedFor] at h
    cases hpeer : pool.peers.get? peer with
    | none =>
      rw [hpeer] at h
      exact absurd h (IssuedIds.not_reserves_startingAt _)
    | some issued =>
      rw [hpeer] at h
      exact ⟨issued, hpeer, h⟩
  · exact Reserves.issuedFor

/-- Unexpired IDs stay reserved when one is issued, and this one is reserved as well. -/
theorem reserves_issue_iff (hnow : now < expiry) :
    (pool.issue now peer).2.Reserves p id expiry ↔
      pool.Reserves p id expiry ∨
        peer = p ∧ (pool.issue now peer).1 = .ok id ∧ expiry = now + pool.lifetime := by
  rw [Reserves, peers_issue, Table.get?_insert]
  by_cases hp : peer = p
  · subst hp
    rw [if_pos rfl, issue_eq_ok_iff, ← reserves_issuedFor_iff]
    simp [IssuedIds.reserves_issue_iff hnow]
  · rw [if_neg hp]
    simp [hp, Reserves]

/-- They stay reserved when peers are forgotten. -/
theorem reserves_purge_iff (hnow : now < expiry) :
    (pool.purge now).Reserves p id expiry ↔ pool.Reserves p id expiry := by
  constructor
  · rintro ⟨issued, hissued, hreserves⟩
    rw [get?_purge] at hissued
    obtain ⟨hretired, -⟩ := Option.filter_eq_some_iff.mp hissued
    obtain ⟨before, hbefore, rfl⟩ := Option.map_eq_some_iff.mp hretired
    exact ⟨before, hbefore, hreserves.of_retire⟩
  · intro h
    exact h.purge hnow

/-- **The IDs in use are the reserved ones** that have not expired. -/
theorem Tracks.inUse_iff (h : pool.Tracks log now) (peer : Endpoint) (id : MessageId) :
    InUse pool.lifetime log now peer id ↔
      ∃ expiry, now < expiry ∧ (pool.issuedFor peer).Reserves id expiry := by
  constructor
  · rintro ⟨x, hx, hpeer, hid, hnow⟩
    refine ⟨x.time + pool.lifetime, hnow, reserves_issuedFor_iff.mpr ?_⟩
    exact (h.reserves_iff peer id _ hnow).mpr ⟨x, hx, hpeer, hid, rfl⟩
  · rintro ⟨expiry, hnow, hreserves⟩
    obtain ⟨x, hx, hpeer, hid, rfl⟩ :=
      (h.reserves_iff peer id expiry hnow).mp (reserves_issuedFor_iff.mp hreserves)
    exact ⟨x, hx, hpeer, hid, hnow⟩

/-- Time alone changes nothing but what has expired. -/
theorem Tracks.later (h : pool.Tracks log t) (hle : t ≤ now) : pool.Tracks log now where
  ordered peer issued hissued :=
    (h.ordered peer issued hissued).later (Nat.add_le_add_right hle _)
  reserves_iff peer id expiry hnow := h.reserves_iff peer id expiry (Nat.lt_of_le_of_lt hle hnow)
  unrepeated := h.unrepeated
  past x hx := Nat.le_trans (h.past x hx) hle

/-- The times that are kept for a peer are in order. -/
theorem Tracks.ordered_issuedFor (h : pool.Tracks log now) (peer : Endpoint) :
    (pool.issuedFor peer).Ordered (now + pool.lifetime) := by
  rw [issuedFor]
  cases hpeer : pool.peers.get? peer with
  | none => exact IssuedIds.ordered_startingAt _ _
  | some issued => exact h.ordered peer issued hpeer

/-! ### One step -/

/-- The lifetime of a pool stays as it is. -/
theorem lifetime_step (pool : MessageIdPool) (now : Instant) (event : Event) :
    (pool.step now event).lifetime = pool.lifetime := by
  cases event with
  | issue peer => exact lifetime_issue pool now peer
  | purge => rfl

/-- A pool keeps track of an ID that it issues. -/
theorem Tracks.issue (h : pool.Tracks log now) (peer : Endpoint) :
    (pool.issue now peer).2.Tracks (log ++ (pool.issuance? now (.issue peer)).toList) now := by
  have hlifetime := lifetime_issue pool now peer
  have hnew (x : Issuance) : x ∈ (pool.issuance? now (.issue peer)).toList ↔
      x.time = now ∧ x.peer = peer ∧ (pool.issue now peer).1 = .ok x.id := by
    rw [Option.mem_toList, issuance?]
    obtain ⟨time, p, id⟩ := x
    cases hissue : (pool.issue now peer).1 with
    | error e => simp
    | ok given =>
      constructor
      · rintro ⟨⟩
        exact ⟨rfl, rfl, rfl⟩
      · rintro ⟨rfl, rfl, ⟨⟩⟩
        rfl
  constructor
  · intro p issued hissued
    rw [peers_issue, Table.get?_insert] at hissued
    rw [hlifetime]
    split at hissued
    · cases hissued
      exact (h.ordered_issuedFor peer).issue
    · exact h.ordered p issued hissued
  · intro p id expiry hnow
    rw [reserves_issue_iff hnow, h.reserves_iff p id expiry hnow, hlifetime]
    constructor
    · rintro (⟨x, hx, hpeer, hid, hexpiry⟩ | ⟨rfl, hissued, rfl⟩)
      · exact ⟨x, List.mem_append_left _ hx, hpeer, hid, hexpiry⟩
      · have hx := (hnew ⟨now, peer, id⟩).mpr ⟨rfl, rfl, hissued⟩
        exact ⟨_, List.mem_append_right _ hx, rfl, rfl, rfl⟩
    · rintro ⟨x, hx, rfl, rfl, rfl⟩
      rcases List.mem_append.mp hx with hold | hx
      · exact .inl ⟨x, hold, rfl, rfl, rfl⟩
      · obtain ⟨htime, hpeer, hissued⟩ := (hnew x).mp hx
        exact .inr ⟨hpeer.symm, hissued, by rw [htime]⟩
  · rw [hlifetime]
    apply List.pairwise_append.mpr
    refine ⟨h.unrepeated, ?_, ?_⟩
    · cases pool.issuance? now (.issue peer) with
      | none => exact List.Pairwise.nil
      | some x => exact List.pairwise_singleton ..
    · -- an ID that was issued so lately is still reserved, and that is not issued
      intro x hx y hy hpeer hlive hid
      obtain ⟨htime, rfl, hissued⟩ := (hnew y).mp hy
      rw [htime] at hlive
      have hreserves : pool.Reserves y.peer y.id (x.time + pool.lifetime) :=
        (h.reserves_iff _ _ _ hlive).mpr ⟨x, hx, hpeer, hid, rfl⟩
      exact hreserves.not_issued hlive hissued
  · intro x hx
    rcases List.mem_append.mp hx with hold | hx
    · exact h.past x hold
    · exact Nat.le_of_eq ((hnew x).mp hx).1

/-- A pool keeps track of what it has issued when peers are forgotten. -/
theorem Tracks.purge (h : pool.Tracks log now) : (pool.purge now).Tracks log now where
  ordered p issued hissued := by
    rw [get?_purge] at hissued
    obtain ⟨hretired, -⟩ := Option.filter_eq_some_iff.mp hissued
    obtain ⟨before, hbefore, rfl⟩ := Option.map_eq_some_iff.mp hretired
    exact (h.ordered p before hbefore).retire now
  reserves_iff p id expiry hnow := by
    rw [reserves_purge_iff hnow]
    exact h.reserves_iff p id expiry hnow
  unrepeated := h.unrepeated
  past := h.past

/-- So it does in every step. -/
theorem Tracks.step (h : pool.Tracks log now) (event : Event) :
    (pool.step now event).Tracks (log ++ (pool.issuance? now event).toList) now := by
  cases event with
  | issue peer => exact h.issue peer
  | purge =>
    rw [issuance?, Option.toList_none, List.append_nil]
    exact h.purge

/-! ### Whole histories -/

/-- At the start nothing has been issued. -/
theorem tracks_start (lifetime : Duration) (firstIds : Draws MessageId) :
    ({ lifetime, firstIds } : MessageIdPool).Tracks [] 0 where
  ordered := by
    rintro peer issued ⟨⟩
  reserves_iff peer id expiry _ := by
    constructor
    · rintro ⟨issued, ⟨⟩, -⟩
    · rintro ⟨x, ⟨⟩, -⟩
  unrepeated := List.Pairwise.nil
  past := by
    rintro x ⟨⟩

/-- **A pool follows what was issued from it**, through every history in the order of time. -/
theorem Tracks.run (h : pool.Tracks log t)
    (horder : (t :: (history.map (·.1) ++ [now])).Pairwise (· ≤ ·)) :
    (pool.run history).Tracks (log ++ pool.issuances history) now := by
  induction history generalizing pool log t with
  | nil =>
    rw [issuances, List.append_nil]
    exact h.later (List.rel_of_pairwise_cons horder (List.mem_singleton_self _))
  | cons e rest ih =>
    obtain ⟨u, event⟩ := e
    obtain ⟨hfirst, hrest⟩ := List.pairwise_cons.mp horder
    have hle : t ≤ u := hfirst u List.mem_cons_self
    rw [issuances, ← List.append_assoc]
    exact ih ((h.later hle).step event) hrest

/-- The lifetime is the same throughout. -/
theorem lifetime_run (pool : MessageIdPool) (history : History) :
    (pool.run history).lifetime = pool.lifetime := by
  induction history generalizing pool with
  | nil => rfl
  | cons e rest ih => exact (ih _).trans (lifetime_step pool e.1 e.2)

/-! ## When calls fail -/

/-- The IDs for a peer run out exactly when all of them are in use. -/
theorem Tracks.full_iff (h : pool.Tracks log now) (peer : Endpoint) :
    65536 ≤ ((pool.issuedFor peer).retire now).inUse ↔
      ∀ id, InUse pool.lifetime log now peer id := by
  constructor
  · intro hfull id
    obtain ⟨expiry, hexpiry, hreserves⟩ := IssuedIds.exists_reserves_of_full hfull id
    rw [h.inUse_iff]
    exact ⟨expiry, (h.ordered_issuedFor peer).lt_of_mem_retire hexpiry, hreserves.of_retire⟩
  · intro hall
    by_contra hroom
    obtain ⟨expiry, hnow, hreserves⟩ := (h.inUse_iff peer _).mp (hall (pool.issuedFor peer).next)
    exact (hreserves.retire hnow).ne_next (Nat.lt_of_not_le hroom) rfl

/-- A call fails exactly if no place is left. -/
theorem issue_eq_error_iff :
    (∃ e, (pool.issue now peer).1 = .error e) ↔
      65536 ≤ ((pool.issuedFor peer).retire now).inUse := by
  rw [issue_fst, IssuedIds.issue_eq]
  by_cases hroom : ((pool.issuedFor peer).retire now).inUse < 65536
  · simp [hroom]
  · simp [hroom, Nat.le_of_not_lt hroom]

/-- The peers that are not forgotten are those with an ID in use. -/
theorem Tracks.contains_purge_iff (h : pool.Tracks log now) (p : Endpoint) :
    (pool.purge now).peers.contains p = true ↔ ∃ id, InUse pool.lifetime log now p id := by
  constructor
  · intro hcontains
    obtain ⟨issued, hissued⟩ := Option.isSome_iff_exists.mp hcontains
    rw [get?_purge] at hissued
    obtain ⟨hretired, hused⟩ := Option.filter_eq_some_iff.mp hissued
    obtain ⟨before, hbefore, rfl⟩ := Option.map_eq_some_iff.mp hretired
    obtain ⟨id, expiry, hnow, hreserves⟩ :=
      (h.ordered p before hbefore).exists_reserves_of_inUse (bne_iff_ne.mp hused)
    exact ⟨id, (h.inUse_iff p id).mpr
      ⟨expiry, hnow, reserves_issuedFor_iff.mpr ⟨before, hbefore, hreserves⟩⟩⟩
  · rintro ⟨id, hinUse⟩
    obtain ⟨expiry, hnow, hreserves⟩ := (h.inUse_iff p id).mp hinUse
    obtain ⟨issued, hissued, -⟩ := (reserves_issuedFor_iff.mp hreserves).purge hnow
    exact Option.isSome_iff_exists.mpr ⟨issued, hissued⟩

end MessageIdPool

end Coap
