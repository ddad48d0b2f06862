/-
# Tokens in use

A pool of tokens is seen through the tokens that are in use with each peer.  This file says
what reserving, making up and giving up a token do to them, and that a token which is made up
was not in use before.
-/
import Coap.Identifier.Tokens

namespace Coap.TokenPool

variable {pool : TokenPool} {peer p : Endpoint} {token t : Token}

/-! ## Single steps -/

/-- A token that is reserved is taken once. -/
theorem taken_reserve (pool : TokenPool) (peer p : Endpoint) (token : Token) :
    (pool.reserve peer token).2.taken p =
      if peer = p ∧ token ∉ pool.taken peer then pool.taken p ++ [token] else pool.taken p := by
  unfold reserve
  simp only
  split
  · next hin => simp [List.contains_iff_mem.mp hin]
  · next hout =>
    have hfree : token ∉ pool.taken peer := fun hin => hout (List.contains_iff_mem.mpr hin)
    by_cases hp : peer = p
    · subst hp
      rw [if_pos ⟨rfl, hfree⟩, taken, Table.get?_insert_self]
      rfl
    · rw [if_neg fun h => hp h.1, taken, Table.get?_insert, if_neg hp]
      rfl

/-- A token that is released is not taken any more. -/
theorem taken_release (pool : TokenPool) (peer p : Endpoint) (token : Token) :
    (pool.release peer token).taken p =
      if peer = p then (pool.taken p).filter (· != token) else pool.taken p := by
  unfold release
  by_cases hp : peer = p
  · subst hp
    rw [if_pos rfl]
    split
    · next hnone => rw [hnone, taken, Table.get?_erase, if_pos rfl, Option.getD_none]
    · next hrest => rw [taken, Table.get?_insert_self, Option.getD_some]
  · rw [if_neg hp]
    split
    · rw [taken, Table.get?_erase, if_neg hp, taken]
    · rw [taken, Table.get?_insert, if_neg hp, taken]

/-- Taken are the reserved one and those from before. -/
theorem mem_taken_reserve :
    t ∈ (pool.reserve peer token).2.taken p ↔ t ∈ pool.taken p ∨ peer = p ∧ token = t := by
  rw [taken_reserve]
  split
  · next h =>
    rw [List.mem_append, List.mem_singleton]
    exact or_congr_right ⟨fun ht => ⟨h.1, ht.symm⟩, fun ht => ht.2.symm⟩
  · next h =>
    refine ⟨.inl, fun ht => ht.elim id ?_⟩
    rintro ⟨rfl, rfl⟩
    exact Decidable.not_not.mp fun hfree => h ⟨rfl, hfree⟩

theorem mem_taken_release :
    t ∈ (pool.release peer token).taken p ↔ t ∈ pool.taken p ∧ ¬ (peer = p ∧ token = t) := by
  rw [taken_release]
  by_cases hp : peer = p
  · rw [if_pos hp, List.mem_filter, bne_iff_ne]
    exact and_congr_right fun _ => ⟨fun hne h => hne h.2.symm, fun hne h => hne ⟨hp, h.symm⟩⟩
  · rw [if_neg hp]
    exact ⟨fun ht => ⟨ht, fun h => hp h.1⟩, And.left⟩

/-- Giving a token up again changes nothing. -/
theorem taken_release_release (pool : TokenPool) (peer p : Endpoint) (token : Token) :
    ((pool.release peer token).release peer token).taken p = (pool.release peer token).taken p := by
  rw [taken_release, taken_release]
  split
  · rw [List.filter_filter]
    simp
  · rfl

/-- Reserving a token that is in use changes nothing. -/
theorem reserve_of_taken (h : token ∈ pool.taken peer) : (pool.reserve peer token).2 = pool := by
  unfold reserve
  simp only
  rw [if_pos (List.contains_iff_mem.mpr h)]

/-- A token that was free and is given up again leaves no trace. -/
theorem taken_release_reserve (hfree : token ∉ pool.taken peer) (p : Endpoint) :
    ((pool.reserve peer token).2.release peer token).taken p = pool.taken p := by
  rw [taken_release, taken_reserve]
  by_cases hp : peer = p
  · subst hp
    rw [if_pos rfl, if_pos ⟨rfl, hfree⟩, List.filter_append, List.filter_eq_self.mpr]
    · simp
    · intro t ht
      rw [bne_iff_ne]
      rintro rfl
      exact hfree ht
  · rw [if_neg hp, if_neg fun h => hp h.1]

/-! ## Made-up tokens -/

/-- A token that is drawn has the length asked for and is not one of those given. -/
theorem drawFree_spec {length : Nat} {taken : List Token} {attempts : Nat}
    {bytes : Draws UInt8} (h : (drawFree length taken bytes attempts).1 = some token) :
    token.bytes.length = length ∧ token ∉ taken := by
  induction attempts generalizing bytes with
  | zero => cases h
  | succ attempts ih =>
    unfold drawFree at h
    simp only at h
    split at h
    · cases h
    · next drawn hdrawn =>
      split at h
      · exact ih h
      · next hfree =>
        cases h
        refine ⟨?_, fun hin => hfree (List.contains_iff_mem.mpr hin)⟩
        unfold Token.ofBytes? at hdrawn
        split at hdrawn
        · cases hdrawn
          exact bytes.length_take length
        · cases hdrawn

/-- Making up a token reserves it, or takes nothing into use. -/
theorem generate_cases (pool : TokenPool) (peer : Endpoint) :
    (∃ token bytes, (pool.generate peer).1 = .ok token ∧
      token.bytes.length = pool.length ∧ token ∉ pool.taken peer ∧
      (pool.generate peer).2 = ({ pool with bytes }.reserve peer token).2) ∨
    (∃ bytes, (pool.generate peer).1 = .error .tokens ∧
      (pool.generate peer).2 = { pool with bytes }) := by
  unfold generate
  simp only
  split
  · next token hdrawn =>
    obtain ⟨hlength, hfree⟩ := drawFree_spec hdrawn
    exact .inl ⟨token, _, rfl, hlength, hfree, rfl⟩
  · exact .inr ⟨_, rfl, rfl⟩

theorem length_reserve (pool : TokenPool) (peer : Endpoint) (token : Token) :
    (pool.reserve peer token).2.length = pool.length := by
  unfold reserve
  simp only
  split <;> rfl

theorem length_release (pool : TokenPool) (peer : Endpoint) (token : Token) :
    (pool.release peer token).length = pool.length := by
  unfold release
  split <;> rfl

/-! ## Pools that are kept tidy -/

/-- No token is listed twice, and no peer is kept without tokens. -/
structure Tidy (pool : TokenPool) : Prop where
  nodup : ∀ peer, (pool.taken peer).Nodup
  nonempty : ∀ peer, pool.peers.get? peer ≠ some []

/-- No peer is listed without a token after one was reserved. -/
theorem Tidy.reserve (h : pool.Tidy) (peer : Endpoint) (token : Token) :
    (pool.reserve peer token).2.Tidy where
  nodup p := by
    rw [taken_reserve]
    split
    · next hfree =>
      obtain ⟨rfl, hfree⟩ := hfree
      refine List.nodup_append.mpr ⟨h.nodup peer, by simp, fun t ht t' ht' hsame => ?_⟩
      rw [hsame, List.mem_singleton.mp ht'] at ht
      exact hfree ht
    · exact h.nodup p
  nonempty p := by
    unfold TokenPool.reserve
    simp only
    split
    · exact h.nonempty p
    · rw [Table.get?_insert]
      split
      · simp
      · exact h.nonempty p

/-- No peer is listed without a token after one was released. -/
theorem Tidy.release (h : pool.Tidy) (peer : Endpoint) (token : Token) :
    (pool.release peer token).Tidy where
  nodup p := by
    rw [taken_release]
    split
    · exact (h.nodup p).filter _
    · exact h.nodup p
  nonempty p := by
    unfold TokenPool.release
    split
    · rw [Table.get?_erase]
      split
      · simp
      · exact h.nonempty p
    · next hrest =>
      rw [Table.get?_insert]
      split
      · intro hnone
        exact hrest (Option.some.inj hnone)
      · exact h.nonempty p

end Coap.TokenPool
