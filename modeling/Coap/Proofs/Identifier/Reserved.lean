/-
# Reserved message IDs

An ID that was issued for a peer stays reserved for a lifetime.  The IDs in use are the last
ones that were issued, so an ID is known by its place in the queue of expiry times: the last
place belongs to the ID before the next one, and so on backwards.  Whatever is issued or looked
through in the meantime, a reserved ID keeps its place from the end and is not issued again.
-/
import Coap.Identifier.MessageIds
import Mathlib.Data.List.TakeWhile

namespace Coap

namespace IssuedIds

/-- The ID is in use until the given time. -/
def Reserves (s : IssuedIds) (id : MessageId) (expiry : Instant) : Prop :=
  ∃ before after, s.expiries.toList = before ++ expiry :: after ∧
    id + UInt16.ofNat (after.length + 1) = s.next

variable {s : IssuedIds} {id : MessageId} {now expiry : Instant}

/-- What has not expired stays reserved. -/
theorem Reserves.retire (h : s.Reserves id expiry) (hnow : now < expiry) :
    (s.retire now).Reserves id expiry := by
  obtain ⟨before, after, hqueue, hid⟩ := h
  have hkept : decide (expiry ≤ now) = false := decide_eq_false (Nat.not_le_of_lt hnow)
  refine ⟨before.dropWhile (· ≤ now), after, ?_, hid⟩
  rw [IssuedIds.retire, Queue.toList_dropWhile, hqueue, List.dropWhile_append]
  split
  · next hnil =>
    rw [List.dropWhile_cons_of_neg (by rw [hkept]; exact Bool.false_ne_true),
      List.isEmpty_iff.mp hnil, List.nil_append]
  · rfl

/-- Where an ID is reserved, some are in use. -/
theorem Reserves.inUse_pos (h : s.Reserves id expiry) : 0 < s.inUse := by
  obtain ⟨before, after, hqueue, -⟩ := h
  rw [inUse, Queue.size_eq_length, hqueue, List.length_append, List.length_cons]
  omega

/-- What is issued next has another ID as long as not all are in use. -/
theorem Reserves.ne_next (h : s.Reserves id expiry) (hroom : s.inUse < 65536) : s.next ≠ id := by
  obtain ⟨before, after, hqueue, hid⟩ := h
  rw [inUse, Queue.size_eq_length, hqueue, List.length_append, List.length_cons] at hroom
  -- Both IDs are the same only if a multiple of 65536 were issued in between.
  intro hsame
  have hnat := congrArg UInt16.toNat (hid.trans hsame)
  rw [UInt16.toNat_add, UInt16.toNat_ofNat'] at hnat
  have hlt := id.toNat_lt
  omega

/-- What `issue` gives and leaves. -/
theorem issue_eq (s : IssuedIds) (now : Instant) (lifetime : Duration) :
    s.issue now lifetime =
      if (s.retire now).inUse < 65536 then
        (some s.next, ⟨s.next + 1, (s.retire now).expiries.push (now + lifetime)⟩)
      else (none, s.retire now) := by
  rw [issue]
  by_cases hroom : (s.retire now).inUse < 65536
  · rw [if_pos hroom, if_neg (Nat.not_le_of_lt hroom)]
    rfl
  · rw [if_neg hroom, if_pos (Nat.le_of_not_lt hroom)]

/-- An ID that is reserved is not issued, and stays reserved when another one is. -/
theorem Reserves.issue (h : s.Reserves id expiry) (hnow : now < expiry) (lifetime : Duration) :
    (s.issue now lifetime).1 ≠ some id ∧ (s.issue now lifetime).2.Reserves id expiry := by
  have hretired := h.retire hnow
  rw [issue_eq]
  split
  · next hroom =>
    refine ⟨fun hsame => hretired.ne_next hroom (Option.some.inj hsame), ?_⟩
    obtain ⟨before, after, hqueue, hid⟩ := hretired
    refine ⟨before, after ++ [now + lifetime], ?_, ?_⟩
    · rw [Queue.toList_push, hqueue, List.append_assoc, List.cons_append]
    · have hnext : id + UInt16.ofNat (after.length + 1) = s.next := hid
      rw [List.length_append, List.length_singleton, ← hnext, UInt16.ofNat_add,
        ← UInt16.add_assoc]
      rfl
  · exact ⟨by simp, hretired⟩

/-- An ID that is issued is reserved from then on. -/
theorem reserves_of_issue {lifetime : Duration} (h : (s.issue now lifetime).1 = some id) :
    (s.issue now lifetime).2.Reserves id (now + lifetime) := by
  rw [issue_eq] at h ⊢
  split at h
  · next hroom =>
    rw [if_pos hroom]
    cases h
    exact ⟨_, [], Queue.toList_push .., rfl⟩
  · cases h

end IssuedIds

namespace MessageIdPool

/-- The ID is in use for the peer until the given time. -/
def Reserves (pool : MessageIdPool) (peer : Endpoint) (id : MessageId) (expiry : Instant) : Prop :=
  ∃ issued, pool.peers.get? peer = some issued ∧ issued.Reserves id expiry

/-- The IDs for a peer, which start anew if none are in use. -/
def issuedFor (pool : MessageIdPool) (peer : Endpoint) : IssuedIds :=
  (pool.peers.get? peer).getD (.startingAt pool.firstIds.next.1)

variable {pool : MessageIdPool} {peer p : Endpoint} {id : MessageId} {now expiry : Instant}

/-- The ID is issued from those for the peer, which are kept with it. -/
theorem issue_fst (pool : MessageIdPool) (now : Instant) (peer : Endpoint) :
    (pool.issue now peer).1 =
      ((pool.issuedFor peer).issue now pool.lifetime).1.elim (.error .messageIds) .ok := by
  rw [issue, issuedFor]
  cases pool.peers.get? peer <;> dsimp only [Option.getD] <;> split <;> simp_all

theorem peers_issue (pool : MessageIdPool) (now : Instant) (peer : Endpoint) :
    (pool.issue now peer).2.peers =
      pool.peers.insert peer ((pool.issuedFor peer).issue now pool.lifetime).2 := by
  rw [issue, issuedFor]
  cases pool.peers.get? peer <;> dsimp only [Option.getD] <;> split <;> rfl

theorem lifetime_issue (pool : MessageIdPool) (now : Instant) (peer : Endpoint) :
    (pool.issue now peer).2.lifetime = pool.lifetime := by
  rw [issue]
  cases pool.peers.get? peer <;> dsimp only <;> split <;> rfl

theorem issue_eq_ok_iff :
    (pool.issue now peer).1 = .ok id ↔
      ((pool.issuedFor peer).issue now pool.lifetime).1 = some id := by
  rw [issue_fst]
  cases ((pool.issuedFor peer).issue now pool.lifetime).1 <;> simp

/-- What a pool reserves for a peer is reserved by the IDs for it. -/
theorem Reserves.issuedFor (h : pool.Reserves peer id expiry) :
    (pool.issuedFor peer).Reserves id expiry := by
  obtain ⟨issued, hpeer, hreserves⟩ := h
  rwa [MessageIdPool.issuedFor, hpeer]

/-- A reserved ID stays reserved when others are issued. -/
theorem Reserves.issue (h : pool.Reserves p id expiry) (hnow : now < expiry) :
    (pool.issue now peer).2.Reserves p id expiry := by
  by_cases hp : peer = p
  · subst hp
    refine ⟨_, ?_, (h.issuedFor.issue hnow pool.lifetime).2⟩
    rw [peers_issue, Table.get?_insert_self]
  · obtain ⟨issued, hpeer, hreserves⟩ := h
    refine ⟨issued, ?_, hreserves⟩
    rw [peers_issue, Table.get?_insert, if_neg hp, hpeer]

/-- **A reserved ID is not issued again.** -/
theorem Reserves.not_issued (h : pool.Reserves peer id expiry) (hnow : now < expiry) :
    (pool.issue now peer).1 ≠ .ok id :=
  fun hissued => (h.issuedFor.issue hnow pool.lifetime).1 (issue_eq_ok_iff.mp hissued)

/-- An ID that is issued is reserved for a lifetime. -/
theorem reserves_of_issue (h : (pool.issue now peer).1 = .ok id) :
    (pool.issue now peer).2.Reserves peer id (now + pool.lifetime) := by
  refine ⟨_, ?_, IssuedIds.reserves_of_issue (issue_eq_ok_iff.mp h)⟩
  rw [peers_issue, Table.get?_insert_self]

theorem get?_purge (pool : MessageIdPool) (now : Instant) (peer : Endpoint) :
    (pool.purge now).peers.get? peer =
      ((pool.peers.get? peer).map (·.retire now)).filter (·.inUse != 0) := by
  rw [purge, Table.get?_filter, Table.get?_mapValues]

/-- A peer with a reserved ID is not forgotten. -/
theorem Reserves.purge (h : pool.Reserves p id expiry) (hnow : now < expiry) :
    (pool.purge now).Reserves p id expiry := by
  obtain ⟨issued, hpeer, hreserves⟩ := h
  have hretired := hreserves.retire hnow
  refine ⟨issued.retire now, ?_, hretired⟩
  rw [get?_purge, hpeer, Option.map_some, Option.filter_some, if_pos]
  exact bne_iff_ne.mpr (Nat.ne_of_gt hretired.inUse_pos)

/-- A peer all of whose IDs have expired is forgotten. -/
theorem get?_purge_of_lapsed (h : ∀ issued, pool.peers.get? peer = some issued →
    ∀ expiry ∈ issued.expiries.toList, expiry ≤ now) :
    (pool.purge now).peers.get? peer = none := by
  rw [MessageIdPool.get?_purge]
  cases hissued : pool.peers.get? peer with
  | none => rfl
  | some issued =>
    have hnone : (issued.retire now).expiries.toList = [] := by
      rw [IssuedIds.retire, Queue.toList_dropWhile, List.dropWhile_eq_nil_iff]
      exact fun expiry hexpiry => decide_eq_true (h issued hissued expiry hexpiry)
    have hunused : (issued.retire now).inUse = 0 := by
      rw [IssuedIds.inUse, Queue.size_eq_length, hnone, List.length_nil]
    rw [Option.map_some, Option.filter_some, hunused]
    rfl

end MessageIdPool

end Coap
