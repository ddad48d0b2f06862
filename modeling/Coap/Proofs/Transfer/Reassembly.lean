/-
# Bodies that are put together

A request with a block in it goes on only as the last of pieces that have no gap, with the whole
body.  Conversely, as long as the pieces of a conversation have no gap, are permitted and do not
come too late, each of them is acknowledged until the last one completes the body.  Other
conversations make no difference.
-/
import Coap.Proofs.Transfer.Uploads
import Mathlib.Data.List.Chain

namespace Coap.Transfers

variable {s s' : Transfers} {key : ConversationKey} {history : History} {t : Instant}
  {event : Event} {m : Message} {p : Piece} {l : List Piece}

/-! ## What a node permits -/

/-- Pieces that are permitted: none announces a body over the limit, each fits its block, the body
is not over the limit, and the upload never rests for a lifetime. -/
structure Permitted (s : Transfers) (l : List Piece) : Prop where
  announced : ∀ p ∈ l, ¬ s.announcesTooMuch p.message
  sized : ∀ p ∈ l, Sized p.block p.message
  within : ¬ s.exceeds (body l).length
  lively : l.IsChain fun p q => q.time - p.time < s.lifetime

/-- What exceeds a limit does so if it grows. -/
theorem exceeds_mono {n n' : Nat} (hle : n ≤ n') (h : s.exceeds n) : s.exceeds n' := by
  unfold exceeds at *
  split at h
  · simp only [decide_eq_true_eq] at h ⊢
    exact Nat.lt_of_lt_of_le h hle
  · cases h

/-- The first pieces are permitted if all are. -/
theorem Permitted.left {l' : List Piece} (h : s.Permitted (l ++ l')) : s.Permitted l := by
  refine ⟨fun p hp => h.announced p (List.mem_append_left _ hp),
    fun p hp => h.sized p (List.mem_append_left _ hp), fun hover => h.within ?_,
    (List.isChain_append.mp h.lively).1⟩
  refine exceeds_mono ?_ hover
  rw [body, body, List.flatMap_append, List.length_append]
  exact Nat.le_add_right ..

theorem SameLimits.exceeds_eq (h : SameLimits s s') (n : Nat) : s'.exceeds n = s.exceeds n := by
  rw [exceeds, exceeds, h.2.1]

theorem SameLimits.announcesTooMuch_eq (h : SameLimits s s') (m : Message) :
    s'.announcesTooMuch m = s.announcesTooMuch m := by
  unfold announcesTooMuch
  split
  · exact h.exceeds_eq _
  · rfl

theorem SameLimits.permitted_iff (h : SameLimits s s') : s'.Permitted l ↔ s.Permitted l := by
  constructor
  · rintro ⟨hannounced, hsized, hwithin, hlively⟩
    simp only [h.announcesTooMuch_eq, h.exceeds_eq, h.2.2] at hannounced hwithin hlively
    exact ⟨hannounced, hsized, hwithin, hlively⟩
  · rintro ⟨hannounced, hsized, hwithin, hlively⟩
    refine ⟨?_, hsized, ?_, ?_⟩ <;> simpa only [h.announcesTooMuch_eq, h.exceeds_eq, h.2.2]

/-! ## An upload is kept -/

/-- Permitted pieces without gaps, of which more are to come, are kept as an upload until it has
rested for a lifetime. -/
def Keeps (s : Transfers) (key : ConversationKey) (history : History) : Prop :=
  ∀ init last, Current (pieces key history) (init ++ [last]) → Exact (init ++ [last]) →
    (∀ p ∈ init ++ [last], p.block.more) → s.Permitted (init ++ [last]) →
    (∀ e ∈ history, e.1 - last.time < s.lifetime) →
    s.uploads.get? key = some ⟨body (init ++ [last]), last.time⟩

/-- A permitted piece without a gap before it continues its upload. -/
theorem Keeps.continues (h : s.Keeps key history) (hearlier : ∀ e ∈ history, e.1 ≤ p.time)
    (hcurrent : Current (pieces key history ++ [p]) (l ++ [p])) (hexact : Exact (l ++ [p]))
    (hpermitted : s.Permitted (l ++ [p])) : s.Continues key p.block (body l) := by
  obtain ⟨hleft, hfull, hoffset⟩ := exact_concat_iff.mp hexact
  refine ⟨?_, hoffset⟩
  by_cases hfirst : p.block.number = 0
  · obtain rfl : l = [] := by simpa using (current_concat_first hfirst).mp hcurrent
    rw [if_pos hfirst]
    rfl
  · obtain ⟨l', hcurrent', hl⟩ := (current_concat_later hfirst).mp hcurrent
    obtain rfl : l = l' := List.append_cancel_right hl
    obtain ⟨init, last, rfl⟩ := hcurrent'.exists_concat
    -- The piece before came less than a lifetime ago, so nothing can have dropped the upload.
    have hgap : p.time - last.time < s.lifetime :=
      (List.isChain_append.mp hpermitted.lively).2.2 last (by simp) p rfl
    rw [if_neg hfirst]
    refine ⟨_, h init last hcurrent' hleft (fun q hq => (hfull q hq).1) hpermitted.left ?_, rfl⟩
    exact fun e he => Nat.lt_of_le_of_lt (Nat.sub_le_sub_right (hearlier e he) _) hgap

/-- What becomes of a permitted piece without a gap before it. -/
theorem Keeps.placed (h : s.Keeps key history) (hearlier : ∀ e ∈ history, e.1 ≤ p.time)
    (hrequest : p.message.isRequest) (htoken : p.message.token = key.token)
    (hcurrent : Current (pieces key history ++ [p]) (l ++ [p])) (hexact : Exact (l ++ [p]))
    (hpermitted : s.Permitted (l ++ [p])) :
    let (verdict, s') := s.receiveBlock p.time key.peer p.message p.block
    (p.block.more →
      verdict = .reply (continueReply p.message p.block (min p.block.exponent s.maxExponent)) ∧
        s'.uploads.get? key = some ⟨body (l ++ [p]), p.time⟩) ∧
    (¬ p.block.more → verdict = .forward { p.message with payload := body (l ++ [p]) }) := by
  have hkey : (⟨key.peer, p.message.token⟩ : ConversationKey) = key := by rw [htoken]
  have hlast : p ∈ l ++ [p] := List.mem_append_right _ (List.mem_singleton_self p)
  have hcontinues := h.continues hearlier hcurrent hexact hpermitted
  have hwithin := hpermitted.within
  rw [body_concat] at hwithin ⊢
  have hcases := receiveBlock_cases s p.time key.peer p.block hrequest
  generalize s.receiveBlock p.time key.peer p.message p.block = result at hcases
  obtain ⟨verdict, s'⟩ := result
  dsimp only at hcases ⊢
  cases hcases with
  | refused why =>
    rw [hkey] at why
    obtain hannounced | hunsized | hover := why
    · exact absurd hannounced (hpermitted.announced p hlast)
    · exact absurd (hpermitted.sized p hlast) hunsized
    · exact absurd (hover _ hcontinues) hwithin
  | continued hheld hmore hsized hkept =>
    rw [hkey] at hheld hkept
    obtain rfl := hheld.unique hcontinues
    exact ⟨fun _ => ⟨rfl, hkept⟩, fun hnot => absurd hmore hnot⟩
  | completed hheld hnot =>
    rw [hkey] at hheld
    obtain rfl := hheld.unique hcontinues
    exact ⟨fun hmore => absurd hmore hnot, fun _ => rfl⟩

theorem Keeps.step (h : s.Keeps key history) (hearlier : ∀ e ∈ history, e.1 ≤ t) :
    (s.step t event).Keeps key (history ++ [(t, event)]) := by
  intro init last hcurrent hexact hmore hpermitted hrested
  have hlimits := sameLimits_step s t event
  rw [hlimits.permitted_iff] at hpermitted
  rw [hlimits.2.2] at hrested
  rw [pieces_concat] at hcurrent
  obtain ⟨p, hpiece, hstep⟩ | ⟨hnone, hkept⟩ := upload_cases s t event key
  · obtain ⟨-, rfl, htoken, hrequest, -⟩ := piece?_eq_some_iff.mp hpiece
    rw [hpiece, Option.toList_some] at hcurrent
    obtain rfl := hcurrent.last_eq
    have hplaced := h.placed hearlier hrequest htoken hcurrent hexact hpermitted
    rw [hstep]
    exact (hplaced.1 (hmore last (List.mem_append_right _ (List.mem_singleton_self last)))).2
  · rw [hnone, Option.toList_none, List.append_nil] at hcurrent
    have hbefore := h init last hcurrent hexact hmore hpermitted
      fun e he => hrested e (List.mem_append_left _ he)
    have hnow : t - last.time < s.lifetime := hrested (t, event) (by simp)
    rcases hkept with hsame | hsame
    · rw [hsame, hbefore]
    · rw [hsame, hbefore, Option.filter_some, if_pos (decide_eq_true hnow)]

/-- **Uploads are kept** while pieces come in the order of time. -/
theorem keeps_run (c : Config) (key : ConversationKey) (hordered : Ordered history) :
    ((start c).run history).Keeps key history := by
  induction history using List.reverseRecOn with
  | nil =>
    rintro init last ⟨older, first, later, harrived, -⟩
    exact absurd (congrArg List.length harrived) (by simp [pieces])
  | append_singleton init e ih =>
    obtain ⟨hinit, -, hearlier⟩ := List.pairwise_append.mp hordered
    rw [run_concat]
    exact (ih hinit).step fun e' he' => hearlier e' he' e (List.mem_singleton_self e)

/-! ## Reassembly -/

/-- **Bodies are put together exactly.**  A request with a block in it is forwarded only as the
last of the current pieces of its conversation, which have no gap, and then with their payloads
one after the other.  Conversely, where the current pieces have no gap and are permitted, each of
them is answered with its number and the smaller of the two block sizes, until the last one is
forwarded with the whole body. -/
theorem reassembled (c : Config) (key : ConversationKey) :
    (∀ history t m block, m.token = key.token → m.isRequest → m.block1? = some block →
      ∀ forwarded, (((start c).run history).receive t key.peer m).1 = .forward forwarded →
      ∃ current, Current (pieces key (history ++ [(t, .receive key.peer m)])) current ∧
        Exact current ∧ forwarded = { m with payload := body current }) ∧
    (∀ history current, Ordered history → Current (pieces key history) current → Exact current →
      (start c).Permitted current →
      ∀ before t m block after, history = before ++ (t, .receive key.peer m) :: after →
      m.token = key.token → m.isRequest → m.block1? = some block →
      (∀ p ∈ pieces key after, p.block.number ≠ 0) →
      let verdict := (((start c).run before).receive t key.peer m).1
      (pieces key after ≠ [] ∨ block.more → ∃ reply, verdict = .reply reply ∧
        reply.status? = some .continued ∧
        reply.block1? = some ⟨block.number, true, min block.exponent c.maxBlockExponent⟩) ∧
      (pieces key after = [] → ¬ block.more →
        verdict = .forward { m with payload := body current })) := by
  constructor
  · -- what is forwarded was completed, and the upload held just the pieces before
    intro history t m block htoken hrequest hblock forwarded hforwarded
    let p : Piece := ⟨t, block, m⟩
    have hpiece : piece? key (t, .receive key.peer m) = some p :=
      piece?_eq_some_iff.mpr ⟨rfl, rfl, htoken, hrequest, hblock⟩
    have hkey : (⟨key.peer, m.token⟩ : ConversationKey) = key := by rw [htoken]
    rw [receive_of_block1? hrequest hblock] at hforwarded
    rw [pieces_concat, hpiece, Option.toList_some]
    have hcases := receiveBlock_cases ((start c).run history) t key.peer block hrequest
    rw [hforwarded] at hcases
    cases hcases with
    | completed hheld =>
      rw [hkey] at hheld
      obtain ⟨l, hcurrent, hexact, -, hbody⟩ :=
        (sound_run c key history).exact_concat (p := p) hheld
      exact ⟨l ++ [p], hcurrent, hexact, by rw [body_concat, hbody]⟩
  · rintro history current hordered hcurrent hexact hpermitted before t m block after rfl htoken
      hrequest hblock hlater verdict
    let p : Piece := ⟨t, block, m⟩
    have hpiece : piece? key (t, .receive key.peer m) = some p :=
      piece?_eq_some_iff.mpr ⟨rfl, rfl, htoken, hrequest, hblock⟩
    have hpieces : pieces key (before ++ (t, .receive key.peer m) :: after) =
        (pieces key before ++ [p]) ++ pieces key after := by
      rw [List.append_cons, pieces, List.filterMap_append]
      exact congrArg (· ++ _) (pieces_concat.trans (by rw [hpiece]; rfl))
    rw [hpieces] at hcurrent
    -- no later piece begins anew, so this one is the last of the current pieces for now
    obtain ⟨l', hcurrent', rfl⟩ := hcurrent.of_append hlater
    obtain ⟨l, last, rfl⟩ := hcurrent'.exists_concat
    obtain rfl := hcurrent'.last_eq
    have hlimits := sameLimits_run (start c) before
    have hearlier : ∀ e ∈ before, e.1 ≤ t := fun e he =>
      (List.pairwise_append.mp hordered).2.2 e he _ (List.mem_cons_self ..)
    have hkeeps := keeps_run c key (List.pairwise_append.mp hordered).1
    have hplaced := hkeeps.placed (p := p) hearlier hrequest htoken hcurrent' hexact.left
      (hlimits.permitted_iff.mpr hpermitted.left)
    have hverdict : verdict =
        (((start c).run before).receiveBlock t key.peer m block).1 := by
      rw [← receive_of_block1? hrequest hblock]
    refine ⟨fun hmore => ?_, fun hlast hnot => ?_⟩
    · have hmore' : p.block.more := by
        rcases hmore with hne | hmore
        · exact (hexact.full l p (pieces key after) (List.append_assoc ..) hne).1
        · exact hmore
      obtain ⟨hnumber, hexponent⟩ := Message.block?_bounds hblock
      refine ⟨_, hverdict.trans (hplaced.1 hmore').1, ?_⟩
      rw [hlimits.1]
      exact continueReply_spec hnumber (Nat.le_trans (Nat.min_le_left ..) hexponent)
    · rw [hlast, List.append_nil]
      exact hverdict.trans (hplaced.2 hnot)

/-- Two blocks make a body, although another peer sends a block in between and the block size
changes. -/
theorem reassembled_two :
    let key : ConversationKey := ⟨⟨1⟩, .empty⟩
    let block (value : UInt32) (length : Nat) : Message :=
      { type := .confirmable, code := .request .post, id := 7,
        options := ⟨[⟨.block1, .unsigned value⟩], by simp⟩, payload := List.replicate length 1 }
    let history : History := [(0, .receive key.peer (block 9 32)), (1, .receive ⟨2⟩ (block 8 16)),
      (2, .receive key.peer (block 32 4))]
    let s := (start .standard).run (history.take 2)
    (∃ reply, ((start .standard).receive 0 key.peer (block 9 32)).1 = .reply reply ∧
      reply.status? = some .continued ∧ reply.block1? = some ⟨0, true, 1⟩) ∧
    (s.receive 2 key.peer (block 32 4)).1 =
      .forward { block 32 4 with payload := List.replicate 36 1 } ∧
    ∃ current, Current (pieces key history) current ∧ Exact current ∧
      body current = List.replicate 36 1 := by
  intro key block history s
  have hpieces : pieces key history =
      [⟨0, ⟨0, true, 1⟩, block 9 32⟩, ⟨2, ⟨2, false, 0⟩, block 32 4⟩] := by
    decide +kernel
  have hcurrent : Current (pieces key history) (pieces key history) := by
    rw [hpieces]
    exact ⟨[], _, _, rfl, rfl, rfl, by decide⟩
  have hexact : Exact (pieces key history) := by
    rw [hpieces]
    exact exact_pair (by decide) ⟨by decide, by decide⟩ (by decide)
  have hpermitted : (start .standard).Permitted (pieces key history) := by
    rw [hpieces]
    exact ⟨by decide +kernel, by decide +kernel, by decide +kernel, by decide +kernel⟩
  obtain ⟨-, hconverse⟩ := reassembled .standard key
  have hplaced := hconverse history _ (by decide) hcurrent hexact hpermitted
  have hfirst := hplaced [] 0 (block 9 32) ⟨0, true, 1⟩ _ rfl rfl (by decide) (by decide +kernel)
    (by decide +kernel)
  have hlast := hplaced (history.take 2) 2 (block 32 4) ⟨2, false, 0⟩ [] rfl rfl (by decide)
    (by decide +kernel) (by decide +kernel)
  have hbody : body (pieces key history) = List.replicate 36 1 := by
    rw [hpieces]
    rfl
  refine ⟨hfirst.1 (.inr rfl), ?_, _, hcurrent, hexact, hbody⟩
  rw [← hbody]
  exact hlast.2 rfl (by decide)

/-- Two bodies whose blocks have no gap, are within the limit and come in time, and which are
refused all the same: a block announces more than there is, and a last block is longer than its
size. -/
theorem exact_blocks_refused :
    let key : ConversationKey := ⟨⟨1⟩, .empty⟩
    let request : Message := { type := .confirmable, code := .request .post, id := 7 }
    let first : Message := { request with
      options := ⟨[⟨.block1, .unsigned 8⟩], by decide⟩, payload := List.replicate 16 1 }
    let announcing : Message := { first with
      options := ⟨[⟨.block1, .unsigned 8⟩, ⟨.size1, .unsigned 1000⟩], by decide⟩ }
    let last (length : Nat) : Message := { request with
      options := ⟨[⟨.block1, .unsigned 16⟩], by decide⟩, payload := List.replicate length 1 }
    let s := start { Config.standard with maxBody? := some 100 }
    let regular (history : History) : Prop := Ordered history ∧ ∃ p q,
      pieces key history = [p, q] ∧ Current [p, q] [p, q] ∧ Exact [p, q] ∧
        ¬ s.exceeds (body [p, q]).length ∧ q.time - p.time < s.lifetime ∧ ¬ q.block.more
    regular [(0, .receive key.peer announcing), (1, .receive key.peer (last 4))] ∧
    (∃ reply, (s.receive 0 key.peer announcing).1 = .reply reply ∧
      reply.status? = some .requestEntityTooLarge) ∧
    regular [(0, .receive key.peer first), (1, .receive key.peer (last 20))] ∧
    (∃ reply, ((s.step 0 (.receive key.peer first)).receive 1 key.peer (last 20)).1 = .reply reply ∧
      reply.status? = some .badRequest) := by
  intro key request first announcing last s regular
  refine ⟨⟨by decide, ⟨0, ⟨0, true, 0⟩, announcing⟩, ⟨1, ⟨1, false, 0⟩, last 4⟩, ?_⟩,
    ⟨_, rfl, by decide +kernel⟩,
    ⟨by decide, ⟨0, ⟨0, true, 0⟩, first⟩, ⟨1, ⟨1, false, 0⟩, last 20⟩, ?_⟩,
    ⟨_, rfl, by decide +kernel⟩⟩
  · exact ⟨by decide +kernel, ⟨[], _, _, rfl, rfl, rfl, by simp⟩,
      exact_pair (by decide) ⟨by decide, by decide⟩ (by decide), by decide +kernel,
      by decide +kernel, by decide⟩
  · exact ⟨by decide +kernel, ⟨[], _, _, rfl, rfl, rfl, by simp⟩,
      exact_pair (by decide) ⟨by decide, by decide⟩ (by decide), by decide +kernel,
      by decide +kernel, by decide⟩

end Coap.Transfers
