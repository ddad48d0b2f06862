/-
# Uploads

A block either continues what its conversation has sent so far, or the upload is dropped.  So an
upload that is kept holds exactly the body of the current pieces, and one whose pieces the node
permits is kept.
-/
import Coap.Proofs.Message.Blocks
import Coap.Proofs.Transfer.Pieces

namespace Coap

/-! ## Blocks that come in -/

namespace Block

/-- A number and a size say where a block begins. -/
theorem begins_iff {b : Block} {n : Nat} :
    n % b.size = 0 ∧ n / b.size = b.number ↔ b.number * b.size = n := by
  constructor
  · rintro ⟨hmod, hdiv⟩
    rw [← hdiv]
    exact Nat.div_mul_cancel (Nat.dvd_of_mod_eq_zero hmod)
  · rintro rfl
    exact ⟨Nat.mul_mod_left .., Nat.mul_div_cancel _ b.size_pos⟩

end Block

namespace Transfers

variable {s : Transfers} {now : Instant} {peer : Endpoint} {m : Message} {block : Block}
  {key : ConversationKey}

/-- What a block that is not the last one is answered with. -/
theorem continueReply_spec {exponent : Nat} (hnumber : block.number < Block.numberCount)
    (hexponent : exponent ≤ maxBlockExponent) :
    (continueReply m block exponent).status? = some .continued ∧
      (continueReply m block exponent).block1? = some ⟨block.number, true, exponent⟩ := by
  have hreply : ¬ (m.replyTo .continued).isEmpty ∧ (m.replyTo .continued).options = .empty ∧
      (m.replyTo .continued).status? = some .continued := by
    unfold Message.replyTo
    split <;> exact ⟨Bool.false_ne_true, rfl, rfl⟩
  obtain ⟨hfull, hnone, hstatus⟩ := hreply
  let answer : Block := ⟨block.number, true, exponent⟩
  have hn : block.number < 1048576 := hnumber
  have hvalid := (Block.validateFor_iff (b := answer) (.inl rfl)
    (show block.number < 2 ^ 28 by omega) hexponent).mpr hnumber
  have hreply : continueReply m block exponent = { m.replyTo .continued with
      options := Options.empty.add .block1 (.unsigned answer.toUInt32) } := by
    rw [continueReply, Message.setBlock1, Message.setUnsigned_eq hfull hvalid, hnone]
    rfl
  rw [hreply]
  exact ⟨hstatus, Message.block?_of_values (b := answer) hnumber hexponent rfl⟩

/-! ## What a block does -/

/-- What is held of a body when one of its blocks arrives, and the block begins where that ends.
The first block begins the body anew. -/
def Continues (s : Transfers) (key : ConversationKey) (block : Block) (held : Bytes) : Prop :=
  (if block.number = 0 then held = [] else ∃ u, s.uploads.get? key = some u ∧ u.body = held) ∧
    block.number * block.size = held.length

/-- A block continues one upload only. -/
theorem Continues.unique {block : Block} {held held' : Bytes} (h : s.Continues key block held)
    (h' : s.Continues key block held') : held = held' := by
  obtain ⟨hbegins, -⟩ := h
  obtain ⟨hbegins', -⟩ := h'
  by_cases hfirst : block.number = 0
  · rw [if_pos hfirst] at hbegins hbegins'
    rw [hbegins, hbegins']
  · rw [if_neg hfirst] at hbegins hbegins'
    obtain ⟨u, hu, rfl⟩ := hbegins
    obtain ⟨u', hu', rfl⟩ := hbegins'
    rw [Option.some.inj (hu.symm.trans hu')]

/-- The transfers when a block is to be put in its place. -/
def prepared (s : Transfers) (now : Instant) (key : ConversationKey) (block : Block) :
    Transfers :=
  if block.number = 0 then s.startUpload now key else s

/-- A piece is appended exactly if its block continues what is there. -/
theorem append?_eq_some_iff (now : Instant) (payload : Bytes) {bytes : Bytes} :
    (s.prepared now key block).append? key block payload = some bytes ↔
      ∃ held, s.Continues key block held ∧ bytes = held ++ payload := by
  by_cases hzero : block.number = 0
  · simp only [prepared, append?, startUpload, Continues, hzero, if_true, Table.get?_insert_self,
      Nat.zero_mul, List.length_nil, Nat.zero_mod, Nat.zero_div, and_self, Option.some.injEq]
    constructor
    · rintro rfl
      exact ⟨[], ⟨rfl, rfl⟩, rfl⟩
    · rintro ⟨held, ⟨rfl, -⟩, rfl⟩
      rfl
  · simp only [prepared, append?, Continues, hzero, if_false]
    cases hupload : s.uploads.get? key with
    | none => simp
    | some u =>
      simp only [Block.begins_iff, Option.some.injEq]
      constructor
      · intro h
        split at h
        · next hbegins => exact ⟨u.body, ⟨⟨u, rfl, rfl⟩, hbegins⟩, (Option.some.inj h).symm⟩
        · cases h
      · rintro ⟨held, ⟨⟨_, rfl, rfl⟩, hbegins⟩, rfl⟩
        rw [if_pos hbegins]

/-- The request announces a body that is over the limit. -/
def announcesTooMuch (s : Transfers) (m : Message) : Bool :=
  match m.size1? with
  | some size => s.exceeds size.toNat
  | none => false

/-- The payload is not longer than the block, and as long if more are to come. -/
def Sized (block : Block) (m : Message) : Prop :=
  m.payload.length ≤ block.size ∧ (block.more → m.payload.length = block.size)

/-- Whether a block has its size can be computed. -/
instance : Decidable (Sized block m) := inferInstanceAs (Decidable (_ ∧ (_ → _)))

/-- The request is for a body over the limit: it announces one, or what is held of the body is over
the limit with its block. -/
def TooLarge (s : Transfers) (key : ConversationKey) (m : Message) (block : Block) : Prop :=
  s.announcesTooMuch m ∨ Sized block m ∧
    ∃ held, s.Continues key block held ∧ s.exceeds (held ++ m.payload).length

/-- What a block is answered with, and why. -/
inductive Answered (s : Transfers) (now : Instant) (peer : Endpoint) (m : Message)
    (block : Block) : Verdict → Transfers → Prop
  | tooLarge {s' : Transfers} (hlarge : s.TooLarge ⟨peer, m.token⟩ m block)
      (hgone : s'.uploads.get? ⟨peer, m.token⟩ = none) :
      Answered s now peer m block (.reply (s.tooLarge m (min block.exponent s.maxExponent))) s'
  | unsized {s' : Transfers} (hsmall : ¬ s.TooLarge ⟨peer, m.token⟩ m block)
      (hunsized : ¬ Sized block m) (hgone : s'.uploads.get? ⟨peer, m.token⟩ = none) :
      Answered s now peer m block (.reply (m.replyTo .badRequest)) s'
  | gap {s' : Transfers} (hsmall : ¬ s.TooLarge ⟨peer, m.token⟩ m block) (hsized : Sized block m)
      (hgap : ∀ held, ¬ s.Continues ⟨peer, m.token⟩ block held)
      (hgone : s'.uploads.get? ⟨peer, m.token⟩ = none) :
      Answered s now peer m block (.reply (m.replyTo .requestEntityIncomplete)) s'
  | continued {held : Bytes} {s' : Transfers} (hsmall : ¬ s.TooLarge ⟨peer, m.token⟩ m block)
      (hsized : Sized block m) (hheld : s.Continues ⟨peer, m.token⟩ block held)
      (hmore : block.more)
      (hkept : s'.uploads.get? ⟨peer, m.token⟩ = some ⟨held ++ m.payload, now⟩) :
      Answered s now peer m block
        (.reply (continueReply m block (min block.exponent s.maxExponent))) s'
  | completed {held : Bytes} {s' : Transfers} (hsmall : ¬ s.TooLarge ⟨peer, m.token⟩ m block)
      (hsized : Sized block m) (hheld : s.Continues ⟨peer, m.token⟩ block held)
      (hlast : ¬ block.more) (hgone : s'.uploads.get? ⟨peer, m.token⟩ = none) :
      Answered s now peer m block (.forward { m with payload := held ++ m.payload }) s'

/-- What becomes of a block. -/
inductive Placed (s : Transfers) (now : Instant) (peer : Endpoint) (m : Message) (block : Block) :
    Verdict → Transfers → Prop
  | refused {reply : Message} {s' : Transfers}
      (why : s.announcesTooMuch m ∨ ¬ Sized block m ∨
        (∀ held, s.Continues ⟨peer, m.token⟩ block held → s.exceeds (held ++ m.payload).length))
      (hgone : s'.uploads.get? ⟨peer, m.token⟩ = none) :
      Placed s now peer m block (.reply reply) s'
  | continued {held : Bytes} {s' : Transfers} (hheld : s.Continues ⟨peer, m.token⟩ block held)
      (hmore : block.more) (hsized : Sized block m)
      (hkept : s'.uploads.get? ⟨peer, m.token⟩ = some ⟨held ++ m.payload, now⟩) :
      Placed s now peer m block
        (.reply (continueReply m block (min block.exponent s.maxExponent))) s'
  | completed {held : Bytes} {s' : Transfers} (hheld : s.Continues ⟨peer, m.token⟩ block held)
      (hlast : ¬ block.more) (hgone : s'.uploads.get? ⟨peer, m.token⟩ = none) :
      Placed s now peer m block (.forward { m with payload := held ++ m.payload }) s'

/-- An upload that is dropped is gone, and the others are there. -/
theorem get?_dropUpload (s : Transfers) (key key' : ConversationKey) :
    (s.dropUpload key).uploads.get? key' = if key = key' then none else s.uploads.get? key' :=
  Table.get?_erase ..

/-- The limit for bodies stays when an upload begins. -/
theorem exceeds_prepared (n : Nat) : (s.prepared now key block).exceeds n = s.exceeds n := by
  unfold prepared
  split <;> rfl

/-- A piece is refused if it does not fit, and taken otherwise. -/
theorem receiveBlock_eq (hrequest : m.isRequest) :
    s.receiveBlock now peer m block =
      let key : ConversationKey := ⟨peer, m.token⟩
      let exponent := min block.exponent s.maxExponent
      let s' := s.prepared now key block
      if s.announcesTooMuch m then (.reply (s.tooLarge m exponent), s.dropUpload key)
      else if block.size < m.payload.length ∨ (block.more ∧ m.payload.length ≠ block.size) then
        (.reply (m.replyTo .badRequest), s.dropUpload key)
      else
        match s'.append? key block m.payload with
        | none => (.reply (m.replyTo .requestEntityIncomplete), s'.dropUpload key)
        | some bytes =>
          if s'.exceeds bytes.length then (.reply (s'.tooLarge m exponent), s'.dropUpload key)
          else if block.more then
            (.reply (continueReply m block exponent),
              { s' with uploads := s'.uploads.insert key ⟨bytes, now⟩ })
          else (.forward { m with payload := bytes }, s'.dropUpload key) := by
  simp only [receiveBlock,
    Message.setPayload_of_not_isEmpty (Message.not_isEmpty_of_isRequest hrequest)]
  rfl

/-- The refusal of too large a body stays as well. -/
theorem tooLarge_prepared (exponent : Nat) :
    (s.prepared now key block).tooLarge m exponent = s.tooLarge m exponent := by
  unfold prepared
  split <;> rfl

/-- Every block is answered, or completes its body, and what is not continued is dropped. -/
theorem receiveBlock_answered (s : Transfers) (now : Instant) (peer : Endpoint) (block : Block)
    (hrequest : m.isRequest) :
    s.Answered now peer m block (s.receiveBlock now peer m block).1
      (s.receiveBlock now peer m block).2 := by
  have hgone (s' : Transfers) : (s'.dropUpload ⟨peer, m.token⟩).uploads.get? ⟨peer, m.token⟩ =
      none := by rw [get?_dropUpload, if_pos rfl]
  rw [receiveBlock_eq hrequest]
  dsimp only
  split
  · next hannounced => exact .tooLarge (.inl hannounced) (hgone _)
  · next hannounced =>
    split
    · next hunsized =>
      have hunsized : ¬ Sized block m := by
        rintro ⟨hlong, hshort⟩
        rcases hunsized with hover | ⟨hmore, hne⟩
        · exact Nat.not_lt_of_le hlong hover
        · exact hne (hshort hmore)
      refine .unsized ?_ hunsized (hgone _)
      rintro (hover | ⟨hsized, -⟩)
      · exact hannounced hover
      · exact hunsized hsized
    · next hsized =>
      obtain ⟨hlong, hshort⟩ := not_or.mp hsized
      have hsized : Sized block m := ⟨Nat.le_of_not_lt hlong, fun hmore =>
        not_not.mp fun hne => hshort ⟨hmore, hne⟩⟩
      split
      · next hnone =>
        have hgap (held : Bytes) : ¬ s.Continues ⟨peer, m.token⟩ block held := fun hheld => by
          have hsome := (append?_eq_some_iff now m.payload).mpr ⟨held, hheld, rfl⟩
          rw [hnone] at hsome
          cases hsome
        refine .gap ?_ hsized hgap (hgone _)
        rintro (hover | ⟨-, held, hheld, -⟩)
        · exact hannounced hover
        · exact hgap held hheld
      · next bytes hbytes =>
        obtain ⟨held, hheld, rfl⟩ := (append?_eq_some_iff ..).mp hbytes
        rw [exceeds_prepared, tooLarge_prepared]
        split
        · next hover => exact .tooLarge (.inr ⟨hsized, held, hheld, hover⟩) (hgone _)
        · next hwithin =>
          have hsmall : ¬ s.TooLarge ⟨peer, m.token⟩ m block := by
            rintro (hover | ⟨-, held', hheld', hover⟩)
            · exact hannounced hover
            · rw [hheld'.unique hheld] at hover
              exact hwithin hover
          split
          · next hmore => exact .continued hsmall hsized hheld hmore (Table.get?_insert_self ..)
          · next hlast => exact .completed hsmall hsized hheld hlast (hgone _)

/-- **What becomes of a piece**: one case for each answer. -/
theorem receiveBlock_cases (s : Transfers) (now : Instant) (peer : Endpoint) (block : Block)
    (hrequest : m.isRequest) :
    s.Placed now peer m block (s.receiveBlock now peer m block).1
      (s.receiveBlock now peer m block).2 := by
  have hanswered := receiveBlock_answered s now peer block hrequest
  generalize (s.receiveBlock now peer m block).1 = verdict at hanswered
  generalize (s.receiveBlock now peer m block).2 = s' at hanswered
  cases hanswered with
  | tooLarge hlarge hgone =>
    rcases hlarge with hannounced | ⟨-, held, hheld, hover⟩
    · exact .refused (.inl hannounced) hgone
    · refine .refused (.inr (.inr fun held' hheld' => ?_)) hgone
      rwa [hheld'.unique hheld]
  | unsized _ hunsized hgone => exact .refused (.inr (.inl hunsized)) hgone
  | gap _ _ hgap hgone =>
    exact .refused (.inr (.inr fun held hheld => absurd hheld (hgap held))) hgone
  | continued _ hsized hheld hmore hkept => exact .continued hheld hmore hsized hkept
  | completed _ _ hheld hlast hgone => exact .completed hheld hlast hgone

/-- Another conversation loses its upload only if that has rested too long. -/
theorem get?_receiveBlock_of_ne (now : Instant) (block : Block) (hrequest : m.isRequest)
    (hne : (⟨peer, m.token⟩ : ConversationKey) ≠ key) :
    (s.receiveBlock now peer m block).2.uploads.get? key = s.uploads.get? key ∨
      (s.receiveBlock now peer m block).2.uploads.get? key =
        (s.uploads.get? key).filter fun u => now - u.touched < s.lifetime := by
  have hprepared : (s.prepared now ⟨peer, m.token⟩ block).uploads.get? key = s.uploads.get? key ∨
      (s.prepared now ⟨peer, m.token⟩ block).uploads.get? key =
        (s.uploads.get? key).filter fun u => now - u.touched < s.lifetime := by
    unfold prepared
    split
    · right
      rw [startUpload, Table.get?_insert, if_neg hne, Table.get?_filter]
    · exact .inl rfl
  have hdropped (s' : Transfers) : (s'.dropUpload ⟨peer, m.token⟩).uploads.get? key =
      s'.uploads.get? key := by rw [get?_dropUpload, if_neg hne]
  rw [receiveBlock_eq hrequest]
  dsimp only
  split
  · exact .inl (hdropped s)
  · split
    · exact .inl (hdropped s)
    · split
      · rwa [hdropped]
      · split
        · rwa [hdropped]
        · split
          · rwa [Table.get?_insert, if_neg hne]
          · rwa [hdropped]

/-! ## What an event does -/

/-- The limits of the node are the same. -/
def SameLimits (s s' : Transfers) : Prop :=
  s'.maxExponent = s.maxExponent ∧ s'.maxBody? = s.maxBody? ∧ s'.lifetime = s.lifetime

/-- Slices that are served leave the uploads alone. -/
theorem serveBlock_frame :
    ∃ downloads, (s.serveBlock now peer m block).2 = { s with downloads } := by
  unfold serveBlock
  dsimp only
  repeat' split
  all_goals exact ⟨_, rfl⟩

/-- Responses that go out leave the uploads alone. -/
theorem send_frame (request? : Option Message) :
    ∃ downloads, (s.send now peer m request?).2 = { s with downloads } := by
  unfold send
  dsimp only
  repeat' split
  all_goals exact ⟨_, rfl⟩

/-- The limits are the same after a piece. -/
theorem sameLimits_receiveBlock (hrequest : m.isRequest) :
    SameLimits s (s.receiveBlock now peer m block).2 := by
  have hprepared : SameLimits s (s.prepared now ⟨peer, m.token⟩ block) := by
    unfold prepared
    split <;> exact ⟨rfl, rfl, rfl⟩
  rw [receiveBlock_eq hrequest]
  dsimp only
  split
  · exact ⟨rfl, rfl, rfl⟩
  · split
    · exact ⟨rfl, rfl, rfl⟩
    · split
      · exact hprepared
      · split
        · exact hprepared
        · split <;> exact hprepared

/-- A request with such a block brings a piece. -/
theorem receive_of_block1? (hrequest : m.isRequest) (hblock : m.block1? = some block) :
    s.receive now peer m = s.receiveBlock now peer m block := by
  simp [receive, hrequest, hblock]

/-- An event places a block of a request body, or it leaves the uploads alone. -/
theorem step_cases (s : Transfers) (t : Instant) (event : Event) :
    (∃ peer m block, event = .receive peer m ∧ m.isRequest ∧ m.block1? = some block ∧
      s.step t event = (s.receiveBlock t peer m block).2) ∨
    (∀ key, piece? key (t, event) = none) ∧ ∃ downloads, s.step t event = { s with downloads } := by
  cases event with
  | send peer m request? => exact .inr ⟨fun _ => rfl, send_frame request?⟩
  | receive peer m =>
    by_cases hrequest : m.isRequest
    · cases hblock : m.block1? with
      | some block =>
        refine .inl ⟨peer, m, block, rfl, hrequest, hblock, ?_⟩
        rw [step, receive_of_block1? hrequest hblock]
      | none =>
        refine .inr ⟨fun key => by simp [piece?, hblock], ?_⟩
        simp only [step, receive, hrequest, if_true, hblock]
        split
        · next heq => cases heq
        · split
          · exact serveBlock_frame
          · exact ⟨_, rfl⟩
        · exact ⟨_, rfl⟩
    · refine .inr ⟨fun key => by simp [piece?, hrequest], s.downloads, ?_⟩
      simp [step, receive, hrequest]

/-- The limits are the same after every event. -/
theorem sameLimits_step (s : Transfers) (now : Instant) (event : Event) :
    SameLimits s (s.step now event) := by
  obtain ⟨peer, m, block, -, hrequest, -, hstep⟩ | ⟨-, downloads, hstep⟩ := step_cases s now event
  · rw [hstep]
    exact sameLimits_receiveBlock hrequest
  · rw [hstep]
    exact ⟨rfl, rfl, rfl⟩

/-- The limits are the same throughout. -/
theorem sameLimits_run (s : Transfers) (history : History) : SameLimits s (s.run history) := by
  induction history generalizing s with
  | nil => exact ⟨rfl, rfl, rfl⟩
  | cons e rest ih =>
    obtain ⟨hexponent, hbody, hlifetime⟩ := ih (s.step e.1 e.2)
    obtain ⟨hexponent', hbody', hlifetime'⟩ := sameLimits_step s e.1 e.2
    exact ⟨hexponent.trans hexponent', hbody.trans hbody', hlifetime.trans hlifetime'⟩

/-- A piece that comes for a conversation is placed.  Without one, the upload of the conversation
stays, unless it has rested too long. -/
theorem upload_cases (s : Transfers) (t : Instant) (event : Event) (key : ConversationKey) :
    (∃ p, piece? key (t, event) = some p ∧
      s.step t event = (s.receiveBlock p.time key.peer p.message p.block).2) ∨
    piece? key (t, event) = none ∧
      ((s.step t event).uploads.get? key = s.uploads.get? key ∨
        (s.step t event).uploads.get? key =
          (s.uploads.get? key).filter fun u => t - u.touched < s.lifetime) := by
  obtain ⟨peer, m, block, rfl, hrequest, hblock, hstep⟩ | ⟨hnone, downloads, hstep⟩ :=
    step_cases s t event
  · by_cases hkey : (⟨peer, m.token⟩ : ConversationKey) = key
    · subst hkey
      exact .inl ⟨⟨t, block, m⟩, piece?_eq_some_iff.mpr ⟨rfl, rfl, rfl, hrequest, hblock⟩, hstep⟩
    · have hnone : piece? key (t, .receive peer m) = none := by
        rw [piece?, if_neg]
        rintro ⟨rfl, htoken, -⟩
        exact hkey (by rw [htoken])
      rw [hstep]
      exact .inr ⟨hnone, get?_receiveBlock_of_ne t block hrequest hkey⟩
  · rw [hstep]
    exact .inr ⟨hnone key, .inl rfl⟩

/-! ## What an upload holds -/

variable {history : History} {t : Instant} {event : Event} {p : Piece} {l arrived : List Piece}

/-- The uploads of a conversation hold the current pieces, which have no gaps. -/
def Sound (s : Transfers) (key : ConversationKey) (arrived : List Piece) : Prop :=
  ∀ u, s.uploads.get? key = some u → ∃ current, Current arrived current ∧ Exact current ∧
    (∀ p ∈ current, p.Full) ∧ body current = u.body

/-- A piece that continues an upload is the last of exact pieces. -/
theorem Sound.exact_concat {held : Bytes} (h : s.Sound key arrived)
    (hheld : s.Continues key p.block held) :
    ∃ l, Current (arrived ++ [p]) (l ++ [p]) ∧ Exact (l ++ [p]) ∧ (∀ q ∈ l, q.Full) ∧
      body l = held := by
  obtain ⟨hbegins, hoffset⟩ := hheld
  -- A first block begins anew, whatever was held; any other one continues the current pieces.
  by_cases hfirst : p.block.number = 0
  · rw [if_pos hfirst] at hbegins
    subst hbegins
    exact ⟨[], (current_concat_first hfirst).mpr rfl,
      exact_concat_iff.mpr ⟨exact_nil, by simp, hoffset⟩, by simp, rfl⟩
  · rw [if_neg hfirst] at hbegins
    obtain ⟨u, hu, rfl⟩ := hbegins
    obtain ⟨l, hcurrent, hexact, hfull, hbody⟩ := h u hu
    exact ⟨l, (current_concat_later hfirst).mpr ⟨l, hcurrent, rfl⟩,
      exact_concat_iff.mpr ⟨hexact, hfull, by rw [hbody, hoffset]⟩, hfull, hbody⟩

/-- What an upload holds are the pieces that came in, in every event. -/
theorem Sound.step (h : s.Sound key (pieces key history)) :
    (s.step t event).Sound key (pieces key (history ++ [(t, event)])) := by
  intro u hu
  rw [pieces_concat]
  obtain ⟨p, hpiece, hstep⟩ | ⟨hnone, hkept⟩ := upload_cases s t event key
  · obtain ⟨-, -, htoken, hrequest, -⟩ := piece?_eq_some_iff.mp hpiece
    have hkey : (⟨key.peer, p.message.token⟩ : ConversationKey) = key := by rw [htoken]
    rw [hpiece, Option.toList_some]
    rw [hstep] at hu
    have hcases := receiveBlock_cases s p.time key.peer p.block hrequest
    generalize (s.receiveBlock p.time key.peer p.message p.block).1 = verdict at hcases
    generalize (s.receiveBlock p.time key.peer p.message p.block).2 = s' at hcases hu
    cases hcases with
    | refused _ hgone | completed _ _ hgone =>
      -- There is no upload after a refusal or a last block.
      rw [hkey, hu] at hgone
      cases hgone
    | continued hheld hmore hsized hkept =>
      rw [hkey] at hheld hkept
      cases hu.symm.trans hkept
      obtain ⟨l, hcurrent, hexact, hfull, hbody⟩ := h.exact_concat hheld
      refine ⟨l ++ [p], hcurrent, hexact, ?_, by rw [body_concat, hbody]⟩
      intro q hq
      rcases List.mem_append.mp hq with hq | hq
      · exact hfull q hq
      · rw [List.mem_singleton.mp hq]
        exact ⟨hmore, hsized.2 hmore⟩
  · rw [hnone, Option.toList_none, List.append_nil]
    rcases hkept with hsame | hsame
    · exact h u (hsame ▸ hu)
    · rw [hsame] at hu
      exact h u (Option.filter_eq_some_iff.mp hu).1

/-- What an upload holds are the pieces that came in, throughout a history. -/
theorem sound_run (c : Config) (key : ConversationKey) (history : History) :
    ((start c).run history).Sound key (pieces key history) := by
  induction history using List.reverseRecOn with
  | nil => rintro u ⟨⟩
  | append_singleton init e ih =>
    rw [run_concat]
    exact ih.step

end Transfers

end Coap
