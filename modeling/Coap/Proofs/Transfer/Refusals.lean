/-
# Blocks that are refused

A block of a request body is refused because the body is over the limit, because the block has not
the length it should have, or because it does not follow on what is held of the body; the reasons
take precedence in this order, and each has an answer of its own (`blocks_refused`).  Whatever the
answer is, nothing of the body is kept unless the block is acknowledged.  So what is held of a body
consists of whole blocks and is never over the limit (`Bounded`).
-/
import Coap.Proofs.Transfer.Downloads
import Coap.Proofs.Transfer.Reassembly

namespace Coap

/-- The status of the answer that a message gets, if it gets one. -/
def Verdict.status? : Verdict → Option Status
  | .reply m => m.status?
  | _ => none

/-- Every length can be announced. -/
theorem OptionValue.validateFor_size1 (v : UInt32) :
    (OptionValue.unsigned v).validateFor .size1 = .ok () := by
  obtain ⟨d, hd, hformat, hmin, hmax, himplied⟩ : ∃ d, OptionNumber.size1.definition? = some d ∧
      d.format = .unsigned ∧ d.minLength = 0 ∧ d.maxLength = 4 ∧ d.implied? = none :=
    ⟨_, rfl, rfl, rfl, rfl, rfl⟩
  rw [validateFor_unsigned_iff hd hformat hmin, hmax, himplied]
  refine ⟨v.toNat_lt, by simp, ?_⟩
  rintro ⟨hblock, -⟩
  exact absurd hblock (by decide)

namespace Transfers

variable {s s' : Transfers} {now t : Instant} {peer : Endpoint} {m : Message} {block : Block}
  {key : ConversationKey} {verdict : Verdict} {event : Event}

theorem exceeds_iff {n : Nat} : s.exceeds n ↔ ∃ cap, s.maxBody? = some cap ∧ cap < n := by
  unfold exceeds
  split
  · next cap hcap => simp [hcap]
  · next hcap => simp [hcap]

/-- Only a node with a limit finds a body too large. -/
theorem TooLarge.exists_cap (h : s.TooLarge key m block) : ∃ cap, s.maxBody? = some cap := by
  have hover : ∃ n, s.exceeds n := by
    rcases h with hannounced | ⟨-, held, -, hover⟩
    · unfold announcesTooMuch at hannounced
      split at hannounced
      · exact ⟨_, hannounced⟩
      · cases hannounced
    · exact ⟨_, hover⟩
  obtain ⟨n, hover⟩ := hover
  obtain ⟨cap, hcap, -⟩ := exceeds_iff.mp hover
  exact ⟨cap, hcap⟩

theorem not_sized_iff : ¬ Sized block m ↔
    block.size < m.payload.length ∨ block.more ∧ m.payload.length ≠ block.size := by
  rw [Sized, Decidable.not_and_iff_not_or_not, Nat.not_le, Decidable.not_imp_iff_and_not]

/-! ## Answers -/

/-- What a body over the limit is answered with. -/
theorem tooLarge_spec {exponent : Nat} (hexponent : exponent ≤ Coap.maxBlockExponent) :
    (s.tooLarge m exponent).status? = some .requestEntityTooLarge ∧
      (s.tooLarge m exponent).block1? = some ⟨0, false, exponent⟩ ∧
      (s.tooLarge m exponent).size1? =
        if s.maxBody?.getD 0 < UInt32.size then some (UInt32.ofNat (s.maxBody?.getD 0))
        else none := by
  obtain ⟨hstatus, hfull, hnone, -⟩ := replyTo_spec m .requestEntityTooLarge
  let first : Block := ⟨0, false, exponent⟩
  have hnumber : first.number < Block.numberCount := Nat.zero_lt_succ _
  have hvalid := (Block.validateFor_iff (b := first) (.inl rfl) (Nat.two_pow_pos 28)
    hexponent).mpr hnumber
  let preferred : Message := { m.replyTo .requestEntityTooLarge with
    options := Options.empty.add .block1 (.unsigned first.toUInt32) }
  have hpreferred : ((m.replyTo .requestEntityTooLarge).setBlock1 first).message = preferred := by
    rw [Message.setBlock1, Message.setUnsigned_eq hfull hvalid, hnone]
    rfl
  have hblock : preferred.options.values .block1 = [.unsigned first.toUInt32] := rfl
  unfold tooLarge
  dsimp only
  rw [hpreferred]
  split
  · rw [Message.setSize1, Message.setUnsigned_eq (m := preferred) hfull
      (OptionValue.validateFor_size1 _)]
    refine ⟨hstatus, Message.block?_of_values (b := first) hnumber hexponent ?_,
      Message.unsigned?_of_values ?_⟩
    · rw [Options.values_add, Options.values_remove, if_neg (by decide), if_neg (by decide),
        List.append_nil, hblock]
    · rw [Options.values_add, Options.values_remove, if_pos rfl, if_pos rfl, List.nil_append]
  · exact ⟨hstatus, Message.block?_of_values (b := first) hnumber hexponent hblock, rfl⟩

/-- A block does not follow on what is held exactly if it is not the first one and begins
elsewhere. -/
theorem not_continues_iff : (∀ held, ¬ s.Continues key block held) ↔
    0 < block.number ∧
      ∀ u, s.uploads.get? key = some u → u.body.length ≠ block.number * block.size := by
  constructor
  · intro hgap
    have hlater : block.number ≠ 0 := by
      intro hfirst
      refine hgap [] ⟨by rw [if_pos hfirst], ?_⟩
      rw [hfirst, Nat.zero_mul, List.length_nil]
    refine ⟨Nat.pos_of_ne_zero hlater, fun u hu hlength => hgap u.body ⟨?_, hlength.symm⟩⟩
    rw [if_neg hlater]
    exact ⟨u, hu, rfl⟩
  · rintro ⟨hlater, hgap⟩ held ⟨hbegins, hlength⟩
    rw [if_neg (Nat.ne_of_gt hlater)] at hbegins
    obtain ⟨u, hu, rfl⟩ := hbegins
    exact hgap u hu hlength.symm

/-- The reasons, in the order in which they count. -/
theorem Answered.status?_iff (h : s.Answered now peer m block verdict s')
    (hblock : m.block1? = some block) :
    (verdict.status? = some .requestEntityTooLarge ↔ s.TooLarge ⟨peer, m.token⟩ m block) ∧
      (verdict.status? = some .badRequest ↔
        ¬ s.TooLarge ⟨peer, m.token⟩ m block ∧ ¬ Sized block m) ∧
      (verdict.status? = some .requestEntityIncomplete ↔
        ¬ s.TooLarge ⟨peer, m.token⟩ m block ∧ Sized block m ∧
          ∀ held, ¬ s.Continues ⟨peer, m.token⟩ block held) ∧
      (verdict.status? ≠ some .continued → s'.uploads.get? ⟨peer, m.token⟩ = none) ∧
      verdict.status? ≠ some .internalServerError := by
  obtain ⟨hnumber, hexponent⟩ := Message.block?_bounds hblock
  have hnegotiated : min block.exponent s.maxExponent ≤ Coap.maxBlockExponent :=
    Nat.le_trans (Nat.min_le_left ..) hexponent
  cases h with
  | tooLarge hlarge hgone =>
    have hstatus := (tooLarge_spec (s := s) (m := m) hnegotiated).1
    simp [Verdict.status?, hstatus, hlarge, hgone]
  | unsized hsmall hunsized hgone =>
    have hstatus := (replyTo_spec m .badRequest).1
    simp [Verdict.status?, hstatus, hsmall, hunsized, hgone]
  | gap hsmall hsized hgap hgone =>
    have hstatus := (replyTo_spec m .requestEntityIncomplete).1
    simp [Verdict.status?, hstatus, hsmall, hsized, hgap, hgone]
  | continued hsmall hsized hheld hmore hkept =>
    have hstatus := (continueReply_spec (m := m) hnumber hnegotiated).1
    have hfollows : ¬ ∀ held, ¬ s.Continues ⟨peer, m.token⟩ block held := fun h => h _ hheld
    simp [Verdict.status?, hstatus, hsmall, hsized, hfollows]
  | completed hsmall hsized hheld hlast hgone =>
    have hfollows : ¬ ∀ held, ¬ s.Continues ⟨peer, m.token⟩ block held := fun h => h _ hheld
    simp [Verdict.status?, hsmall, hsized, hfollows, hgone]

/-- A body over the limit is answered with the limit and the block size that is preferred. -/
theorem Answered.reply_of_tooLarge (h : s.Answered now peer m block verdict s')
    (hblock : m.block1? = some block) (hlarge : s.TooLarge ⟨peer, m.token⟩ m block) :
    ∃ reply cap, verdict = .reply reply ∧ s.maxBody? = some cap ∧
      reply.size1? = (if cap < 2 ^ 32 then some (UInt32.ofNat cap) else none) ∧
      reply.block1? = some ⟨0, false, min block.exponent s.maxExponent⟩ := by
  obtain ⟨-, hexponent⟩ := Message.block?_bounds hblock
  obtain ⟨cap, hcap⟩ := hlarge.exists_cap
  obtain ⟨-, hfirst, hsize⟩ := tooLarge_spec (s := s) (m := m)
    (Nat.le_trans (Nat.min_le_left block.exponent s.maxExponent) hexponent)
  rw [hcap, Option.getD_some] at hsize
  cases h with
  | tooLarge => exact ⟨_, cap, rfl, hcap, hsize, hfirst⟩
  | unsized hsmall | gap hsmall | continued hsmall | completed hsmall => exact absurd hlarge hsmall

theorem Answered.within {forwarded : Message}
    (h : s.Answered now peer m block (.forward forwarded) s') :
    ¬ s.exceeds forwarded.payload.length := by
  cases h with
  | completed hsmall hsized hheld =>
    intro hover
    exact hsmall (.inr ⟨hsized, _, hheld, hover⟩)

/-! ## What is held -/

/-- What is held of bodies: whole blocks, at least one, and never more than the limit. -/
def Bounded (s : Transfers) : Prop :=
  ∀ key u, s.uploads.get? key = some u →
    0 < u.body.length ∧ 16 ∣ u.body.length ∧ ¬ s.exceeds u.body.length

/-- A full block behind as many of its size as its number says makes whole blocks. -/
theorem dvd_length_of_continues {held : Bytes} (hheld : s.Continues key block held)
    (hfull : m.payload.length = block.size) :
    0 < (held ++ m.payload).length ∧ 16 ∣ (held ++ m.payload).length := by
  have hlength : (held ++ m.payload).length = (block.number + 1) * block.size := by
    rw [List.length_append, ← hheld.2, hfull, Nat.add_mul, Nat.one_mul]
  have hsize : 16 ∣ block.size := by
    show 16 ∣ 2 ^ (block.exponent + 4)
    exact ⟨2 ^ block.exponent, by rw [Nat.pow_add, Nat.mul_comm]⟩
  rw [hlength]
  exact ⟨Nat.mul_pos (Nat.succ_pos _) block.size_pos, Nat.dvd_mul_left_of_dvd hsize _⟩

/-- What is kept of a block that is acknowledged. -/
theorem Answered.bounded {u : Upload} (h : s.Answered now peer m block verdict s')
    (hu : s'.uploads.get? ⟨peer, m.token⟩ = some u) :
    0 < u.body.length ∧ 16 ∣ u.body.length ∧ ¬ s.exceeds u.body.length := by
  cases h with
  | tooLarge _ hgone | unsized _ _ hgone | gap _ _ _ hgone | completed _ _ _ _ hgone =>
    rw [hgone] at hu
    cases hu
  | continued hsmall hsized hheld hmore hkept =>
    cases hkept.symm.trans hu
    obtain ⟨hpos, hdvd⟩ := dvd_length_of_continues hheld (hsized.2 hmore)
    exact ⟨hpos, hdvd, fun hover => hsmall (.inr ⟨hsized, _, hheld, hover⟩)⟩

theorem Bounded.step (h : s.Bounded) (t : Instant) (event : Event) : (s.step t event).Bounded := by
  intro key u hu
  rw [(sameLimits_step s t event).exceeds_eq]
  obtain ⟨p, hpiece, hstep⟩ | ⟨-, hkept⟩ := upload_cases s t event key
  · obtain ⟨-, -, htoken, hrequest, -⟩ := piece?_eq_some_iff.mp hpiece
    have hkey : (⟨key.peer, p.message.token⟩ : ConversationKey) = key := by rw [htoken]
    rw [hstep, ← hkey] at hu
    exact (receiveBlock_answered s p.time key.peer p.block hrequest).bounded hu
  · -- what another conversation leaves of the upload is what it was before
    rcases hkept with hsame | hsame
    · exact h key u (hsame ▸ hu)
    · rw [hsame] at hu
      exact h key u (Option.filter_eq_some_iff.mp hu).1

theorem bounded_run (c : Config) (history : History) : ((start c).run history).Bounded := by
  induction history using List.reverseRecOn with
  | nil => rintro key u ⟨⟩
  | append_singleton init e ih =>
    rw [run_concat]
    exact ih.step e.1 e.2

/-! ## Refusals -/

/-- **When a block is refused.**  In every state a block that is not acknowledged leaves nothing of
its body behind.  It is answered with 4.13 exactly if the body is over the limit, otherwise with
4.00 exactly if the block has not the length it should have, otherwise with 4.08 exactly if it does
not follow on what is held; it is never answered with 5.00, and no body over the limit goes on.  In
every state that can be reached, what is held are whole blocks within the limit. -/
theorem blocks_refused :
    (∀ (s : Transfers) (now : Instant) (peer : Endpoint) (m : Message) (block : Block),
      m.isRequest → m.block1? = some block →
      let key : ConversationKey := ⟨peer, m.token⟩
      let (verdict, s') := s.receive now peer m
      (verdict.status? ≠ some .continued → s'.uploads.get? key = none) ∧
      (verdict.status? = some .requestEntityTooLarge ↔ s.TooLarge key m block) ∧
      (verdict.status? = some .requestEntityTooLarge → ∃ reply cap, verdict = .reply reply ∧
        s.maxBody? = some cap ∧
        reply.size1? = (if cap < 2 ^ 32 then some (UInt32.ofNat cap) else none) ∧
        reply.block1? = some ⟨0, false, min block.exponent s.maxExponent⟩) ∧
      (verdict.status? = some .badRequest ↔ ¬ s.TooLarge key m block ∧
        (block.size < m.payload.length ∨ block.more ∧ m.payload.length ≠ block.size)) ∧
      (verdict.status? = some .requestEntityIncomplete ↔ ¬ s.TooLarge key m block ∧
        Sized block m ∧ 0 < block.number ∧ ∀ u, s.uploads.get? key = some u →
          u.body.length ≠ block.number * block.size) ∧
      verdict.status? ≠ some .internalServerError ∧
      ∀ forwarded cap, verdict = .forward forwarded → s.maxBody? = some cap →
        forwarded.payload.length ≤ cap) ∧
    ∀ (c : Config) (history : History) (key : ConversationKey) (u : Upload),
      ((start c).run history).uploads.get? key = some u →
      0 < u.body.length ∧ 16 ∣ u.body.length ∧
        ∀ cap, c.maxBody? = some cap → u.body.length ≤ cap := by
  constructor
  · intro s now peer m block hrequest hblock key
    rw [receive_of_block1? hrequest hblock]
    have hanswered := receiveBlock_answered s now peer block hrequest
    generalize s.receiveBlock now peer m block = result at hanswered
    obtain ⟨verdict, s'⟩ := result
    obtain ⟨hlarge, hunsized, hgap, hgone, hserver⟩ := hanswered.status?_iff hblock
    rw [not_sized_iff] at hunsized
    rw [not_continues_iff] at hgap
    refine ⟨hgone, hlarge, fun hstatus => ?_, hunsized, hgap, hserver, ?_⟩
    · exact hanswered.reply_of_tooLarge hblock (hlarge.mp hstatus)
    · rintro forwarded cap rfl hcap
      refine Nat.le_of_not_lt fun hover => hanswered.within ?_
      exact exceeds_iff.mpr ⟨cap, hcap, hover⟩
  · intro c history key u hu
    obtain ⟨hpos, hdvd, hwithin⟩ := bounded_run c history key u hu
    rw [(sameLimits_run (start c) history).exceeds_eq] at hwithin
    refine ⟨hpos, hdvd, fun cap hcap => Nat.le_of_not_lt fun hover => hwithin ?_⟩
    exact exceeds_iff.mpr ⟨cap, hcap, hover⟩

/-- A second block takes a body of forty bytes at most over its limit. -/
theorem blocks_refused_second :
    let key : ConversationKey := ⟨⟨1⟩, .empty⟩
    let c : Config := { Config.standard with maxBody? := some 40 }
    let block (value : UInt32) : Message :=
      { type := .confirmable, code := .request .post, id := 7,
        options := ⟨[⟨.block1, .unsigned value⟩], by simp⟩, payload := List.replicate 32 1 }
    let s := (start c).run [(0, .receive key.peer (block 9))]
    let (verdict, s') := s.receive 1 key.peer (block 25)
    s.uploads.get? key = some ⟨List.replicate 32 1, 0⟩ ∧ 16 ∣ (List.replicate 32 1).length ∧
      (∃ reply, verdict = .reply reply ∧ reply.status? = some .requestEntityTooLarge ∧
        reply.size1? = some 40 ∧ reply.block1? = some ⟨0, false, 1⟩) ∧
      s'.uploads.get? key = none := by
  intro key c block s
  have hheld : s.uploads.get? key = some ⟨List.replicate 32 1, 0⟩ := by decide +kernel
  have hrequest : (block 25).isRequest := by decide
  have hblock : (block 25).block1? = some ⟨1, true, 1⟩ := by decide +kernel
  have hlarge : s.TooLarge key (block 25) ⟨1, true, 1⟩ :=
    .inr ⟨by decide, List.replicate 32 1, ⟨⟨_, hheld, rfl⟩, by decide⟩, by decide +kernel⟩
  obtain ⟨hrefused, hstored⟩ := blocks_refused
  obtain ⟨hgone, hlimit, hreply, -⟩ := hrefused s 1 key.peer (block 25) ⟨1, true, 1⟩ hrequest hblock
  have hstatus := hlimit.mpr hlarge
  obtain ⟨reply, cap, hverdict, hcap, hsize, hfirst⟩ := hreply hstatus
  have hforty : s.maxBody? = some 40 := by decide +kernel
  cases hforty.symm.trans hcap
  refine ⟨hheld, (hstored c _ key _ hheld).2.1, ⟨reply, hverdict, ?_, hsize, ?_⟩, hgone ?_⟩
  · rw [← hstatus]
    exact (congrArg Verdict.status? hverdict).symm
  · rw [hfirst]
    decide +kernel
  · rw [hstatus]
    decide

end Transfers

end Coap
