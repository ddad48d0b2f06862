/-
# Downloads

A response whose body does not fit one block is kept, and the peer fetches the body slice by
slice.  What an event does to a kept response depends on the event and on when a slice was last
fetched: `lastTouched?` says, without the state, how long the response is kept, and
`get?_run_of_lastTouched?` that it is kept as long as that.
-/
import Coap.Proofs.Message.Building
import Coap.Proofs.Transfer.Uploads

namespace Coap.Transfers

variable {s : Transfers} {key : ConversationKey} {t now since : Instant} {event : Event}
  {peer : Endpoint} {m : Message} {block slice : Block} {d : Download} {maxExponent length : Nat}
  {request? : Option Message}

/-! ## Slices -/

/-- The slice that is served for a block of a body with `length` bytes: it begins where the block
does, in the smaller of the two sizes. -/
def sliceOf (maxExponent length : Nat) (block : Block) : Block :=
  let exponent := min block.exponent maxExponent
  let size := Block.sizeOfExponent exponent
  ⟨block.offset / size, block.offset + size < length, exponent⟩

/-- The slice to be sent is not larger than the one that was asked for. -/
theorem exponent_sliceOf_le (maxExponent length : Nat)
    (hexponent : block.exponent ≤ Coap.maxBlockExponent) :
    (sliceOf maxExponent length block).exponent ≤ Coap.maxBlockExponent :=
  Nat.le_trans (Nat.min_le_left ..) hexponent

/-- The slice to be sent begins where the one does that was asked for. -/
theorem offset_sliceOf (maxExponent length : Nat) (block : Block) :
    (sliceOf maxExponent length block).offset = block.offset := by
  refine Nat.div_mul_cancel (Nat.dvd_trans ?_ (Nat.dvd_mul_left block.size block.number))
  exact Nat.pow_dvd_pow 2 (Nat.add_le_add_right (Nat.min_le_left ..) 4)

/-- A smaller size makes for a greater number, but not for one that 32 bits cannot hold. -/
theorem number_sliceOf_lt (hnumber : block.number < Block.numberCount)
    (hexponent : block.exponent ≤ Coap.maxBlockExponent) :
    (sliceOf maxExponent length block).number < 2 ^ 28 := by
  have hn : block.number < 1048576 := hnumber
  have hsize : block.size ≤ 1024 := Nat.pow_le_pow_right (n := 2) (by decide)
    (Nat.add_le_add_right hexponent 4)
  have hoffset : block.offset ≤ 1048576 * 1024 := Nat.mul_le_mul (Nat.le_of_lt hn) hsize
  have hsmall : 2 ^ 4 ≤ (sliceOf maxExponent length block).size :=
    Nat.pow_le_pow_right (by decide) (Nat.le_add_left ..)
  have hnumber' : (sliceOf maxExponent length block).number ≤ block.offset / 2 ^ 4 :=
    Nat.div_le_div_left hsmall (by decide)
  omega

/-- The answer that carries a slice of a kept response. -/
def sliceAnswer (m : Message) (d : Download) (slice : Block) : Message :=
  { m.replyTo (d.template.status?.getD .content) with
    options := (d.template.options.remove .block2).add .block2 (.unsigned slice.toUInt32)
    payload := (d.body.drop slice.offset).take slice.size }

/-- A reply has its status and nothing else. -/
theorem replyTo_spec (m : Message) (status : Status) :
    (m.replyTo status).status? = some status ∧ ¬ (m.replyTo status).isEmpty ∧
      (m.replyTo status).options = .empty ∧ (m.replyTo status).payload = [] := by
  have hempty := Message.WellFormed.not_isEmpty_response status
  have hstatus : (Code.response status).status? = some status := by
    rw [Code.status?, Code.meaning_response]
  unfold Message.replyTo
  split <;> exact ⟨hstatus, hempty, rfl, rfl⟩

/-- Options are copied as a whole where there were none. -/
theorem copyOptions_of_no_options {source target : Message} (hnone : target.options = .empty) :
    copyOptions source target = { target with options := source.options } := by
  rw [copyOptions, hnone, Options.foldl_add]

/-- No option is refused in a slice whose block can be encoded. -/
theorem sliceReply_eq (hnumber : slice.number < Block.numberCount)
    (hexponent : slice.exponent ≤ Coap.maxBlockExponent) :
    sliceReply m d slice = ⟨sliceAnswer m d slice, none⟩ := by
  obtain ⟨-, hfull, hnone, -⟩ := replyTo_spec m (d.template.status?.getD .content)
  have hn : slice.number < 1048576 := hnumber
  have hvalid := (Block.validateFor_iff (b := slice) (.inr rfl)
    (show slice.number < 2 ^ 28 by omega) hexponent).mpr hnumber
  have hset := Message.setUnsigned_eq
    (m := { m.replyTo (d.template.status?.getD .content) with options := d.template.options })
    hfull hvalid
  rw [sliceReply, copyOptions_of_no_options hnone, Message.setBlock2, hset, Edit.andThen_done]
  exact Message.setPayload_of_not_isEmpty hfull

/-- A slice without a number cannot be sent. -/
theorem sliceReply_fault_ne_none (hnumber : Block.numberCount ≤ slice.number)
    (hlt : slice.number < 2 ^ 28) (hexponent : slice.exponent ≤ Coap.maxBlockExponent) :
    (sliceReply m d slice).fault? ≠ none := by
  have hinvalid := mt (Block.validateFor_iff (b := slice) (.inr rfl) hlt hexponent).mp
    (Nat.not_lt_of_le hnumber)
  have hrefused := Message.setUnsigned_fault_ne_none
    (m := copyOptions d.template (m.replyTo (d.template.status?.getD .content))) hinvalid
  exact Message.andThen_fault_ne_none _ hrefused

/-! ## A later block is asked for -/

/-- The transfers after a slice was served: the last slice ends the download. -/
def served (s : Transfers) (now : Instant) (key : ConversationKey) (d : Download) (slice : Block) :
    Transfers :=
  if slice.more then
    { s with downloads := s.downloads.insert key { d with touched := now } }
  else s.dropDownload key

/-- What becomes of a request for a block of a response that is kept. -/
inductive Serving (s : Transfers) (now : Instant) (peer : Endpoint) (m : Message) (block : Block)
    (d : Download) : Verdict → Transfers → Prop
  | beyond (h : d.body.length ≤ block.offset) :
      Serving s now peer m block d (.reply (m.replyTo .badOption)) s
  | uncounted (h : block.offset < d.body.length)
      (hnumber : Block.numberCount ≤ (sliceOf s.maxExponent d.body.length block).number) :
      Serving s now peer m block d (.reply (m.replyTo .internalServerError)) s
  | slice (h : block.offset < d.body.length)
      (hnumber : (sliceOf s.maxExponent d.body.length block).number < Block.numberCount) :
      Serving s now peer m block d
        (.reply (sliceAnswer m d (sliceOf s.maxExponent d.body.length block)))
        (s.served now ⟨peer, m.token⟩ d (sliceOf s.maxExponent d.body.length block))

/-- A block that is asked for is served from the stored response. -/
theorem serveBlock_eq (hd : s.downloads.get? ⟨peer, m.token⟩ = some d) :
    s.serveBlock now peer m block =
      let slice := sliceOf s.maxExponent d.body.length block
      if d.body.length ≤ slice.offset then (.reply (m.replyTo .badOption), s)
      else
        match (sliceReply m d slice).fault? with
        | some _ => (.reply (m.replyTo .internalServerError), s)
        | none => (.reply (sliceReply m d slice).message, s.served now ⟨peer, m.token⟩ d slice) := by
  have hcancel : block.offset / Block.sizeOfExponent (min block.exponent s.maxExponent) *
      Block.sizeOfExponent (min block.exponent s.maxExponent) = block.offset :=
    offset_sliceOf s.maxExponent d.body.length block
  rw [serveBlock, hd]
  dsimp only
  rw [hcancel]
  rfl

/-- It begins behind the end of the body, its number cannot be written, or it is served. -/
theorem serveBlock_cases (now : Instant) (hblock : m.block2? = some block)
    (hd : s.downloads.get? ⟨peer, m.token⟩ = some d) :
    Serving s now peer m block d (s.serveBlock now peer m block).1
      (s.serveBlock now peer m block).2 := by
  obtain ⟨hnumber, hexponent⟩ := Message.block?_bounds hblock
  have hexponent' := exponent_sliceOf_le s.maxExponent d.body.length hexponent
  rw [serveBlock_eq hd]
  dsimp only
  rw [offset_sliceOf]
  split
  · next hbeyond => exact .beyond hbeyond
  · next hbegins =>
    have hbegins := Nat.lt_of_not_le hbegins
    by_cases hcounted :
        (sliceOf s.maxExponent d.body.length block).number < Block.numberCount
    · rw [sliceReply_eq hcounted hexponent']
      exact .slice hbegins hcounted
    · have hcounted := Nat.le_of_not_lt hcounted
      have hfault := sliceReply_fault_ne_none (m := m) (d := d) hcounted
        (number_sliceOf_lt hnumber hexponent) hexponent'
      split
      · exact .uncounted hbegins hcounted
      · next hnone => exact absurd hnone hfault

/-- The last slice ends a download, and others touch it. -/
theorem get?_served (now : Instant) (key key' : ConversationKey) (d : Download) (slice : Block) :
    (s.served now key d slice).downloads.get? key' =
      if key = key' then if slice.more then some { d with touched := now } else none
      else s.downloads.get? key' := by
  by_cases hmore : slice.more
  · rw [served, if_pos hmore, if_pos hmore]
    exact Table.get?_insert ..
  · rw [served, if_neg hmore, if_neg hmore]
    exact Table.get?_erase ..

/-- Downloads under other keys are not concerned. -/
theorem get?_serveBlock_of_ne (now : Instant)
    (hne : (⟨peer, m.token⟩ : ConversationKey) ≠ key) :
    (s.serveBlock now peer m block).2.downloads.get? key = s.downloads.get? key := by
  cases hd : s.downloads.get? ⟨peer, m.token⟩ with
  | none => simp only [serveBlock, hd]
  | some d =>
    rw [serveBlock_eq hd]
    dsimp only
    split
    · rfl
    · split
      · rfl
      · rw [get?_served, if_neg hne]

/-! ## A response is cut -/

/-- The exponent of the blocks that a response is cut into: the one the request asked for, unless
the node sends only smaller blocks. -/
def firstExponent (s : Transfers) (request? : Option Message) : Nat :=
  match request?.bind Message.block2? with
  | some block => min block.exponent s.maxExponent
  | none => s.maxExponent

/-- A first slice is not larger than is configured. -/
theorem firstExponent_le (s : Transfers) (request? : Option Message) :
    s.firstExponent request? ≤ s.maxExponent := by
  unfold firstExponent
  split
  · exact Nat.min_le_right ..
  · exact Nat.le_refl _

/-- A response is cut if it is not a block itself and its body does not fit one. -/
def Cuts (s : Transfers) (m : Message) (request? : Option Message) : Prop :=
  m.isResponse ∧ ¬ m.options.has .block2 ∧
    Block.sizeOfExponent (s.firstExponent request?) < m.payload.length

/-- Whether a response is cut can be computed. -/
instance : Decidable (s.Cuts m request?) := inferInstanceAs (Decidable (_ ∧ _ ∧ _))

/-- The options of the first slice of a response: those of the response, the place of the slice,
and how long the body is, if 32 bits can say that. -/
def firstOptions (m : Message) (exponent : Nat) : Options :=
  let sized :=
    if m.payload.length < UInt32.size then
      (m.options.remove .size2).add .size2 (.unsigned (UInt32.ofNat m.payload.length))
    else m.options
  let first : Block := ⟨0, true, exponent⟩
  (sized.remove .block2).add .block2 (.unsigned first.toUInt32)

/-- A response as it is kept: without its body, and without what belongs to its first slice. -/
def kept (t : Instant) (m : Message) : Download where
  template := { m with payload := [], options := m.options.remove .observe }
  body := m.payload
  touched := t

/-- The size of a body is always accepted. -/
theorem validateFor_size2 (v : UInt32) : (OptionValue.unsigned v).validateFor .size2 = .ok () := by
  rw [OptionValue.validateFor_unsigned_iff (d := ⟨.size2, "Size2", .unsigned, 0, 4, false, none⟩)
    rfl rfl rfl]
  exact ⟨v.toNat_lt, by simp, fun h => absurd h.1 (by decide)⟩

/-- No option is refused in a first slice either. -/
theorem firstSlice_eq {exponent : Nat} (hresponse : m.isResponse)
    (hexponent : exponent ≤ Coap.maxBlockExponent) :
    firstSlice { m with payload := [] } m.payload exponent =
      ⟨{ m with
          options := firstOptions m exponent
          payload := m.payload.take (Block.sizeOfExponent exponent) }, none⟩ := by
  have hfull := Message.not_isEmpty_of_isResponse hresponse
  have hvalid := (Block.validateFor_iff (b := ⟨0, true, exponent⟩) (.inr rfl)
    (show 0 < 2 ^ 28 by decide) hexponent).mpr (show 0 < 1048576 by decide)
  have hsize := Message.setUnsigned_eq (m := { m with payload := [] }) hfull
    (validateFor_size2 (UInt32.ofNat m.payload.length))
  have hblock (options : Options) := Message.setUnsigned_eq
    (m := { m with options, payload := [] }) hfull hvalid
  rw [firstSlice, firstOptions, Message.setSize2, hsize]
  split
  · rw [Edit.andThen_done, Message.setBlock2, hblock, Edit.andThen_done]
    exact Message.setPayload_of_not_isEmpty hfull
  · rw [Edit.andThen_done, Message.setBlock2, hblock, Edit.andThen_done]
    exact Message.setPayload_of_not_isEmpty hfull

/-- **What becomes of a message that goes out**: it is cut, or it passes as it is. -/
theorem send_eq (s : Transfers) (now : Instant) (peer : Endpoint) (m : Message)
    (request? : Option Message) :
    s.send now peer m request? =
      if s.Cuts m request? then
        match (firstSlice { m with payload := [] } m.payload
            (s.firstExponent request?)).toExcept with
        | .error fault => (.error (.notBuilt fault), s)
        | .ok first => (.ok first, s.startDownload now ⟨peer, first.token⟩ (kept now m))
      else (.ok m, s) := by
  by_cases hcuts : s.Cuts m request?
  · obtain ⟨hresponse, hwhole, hlong⟩ := id hcuts
    rw [if_pos hcuts, send, if_pos ⟨hresponse, by simpa using hwhole⟩]
    exact if_neg (Nat.not_le_of_lt hlong)
  · rw [if_neg hcuts, send]
    split
    · next hwhole =>
      refine if_pos (Nat.le_of_not_lt fun hlong => hcuts ⟨hwhole.1, ?_, hlong⟩)
      simpa using hwhole.2
    · rfl

/-- The first slice of a response that is cut, and the response that is kept. -/
theorem send_of_cuts (now : Instant) (peer : Endpoint) (hcuts : s.Cuts m request?)
    (hexponent : s.firstExponent request? ≤ Coap.maxBlockExponent) :
    s.send now peer m request? =
      (.ok { m with
          options := firstOptions m (s.firstExponent request?)
          payload := m.payload.take (Block.sizeOfExponent (s.firstExponent request?)) },
        s.startDownload now ⟨peer, m.token⟩ (kept now m)) := by
  rw [send_eq, if_pos hcuts, firstSlice_eq hcuts.1 hexponent]
  rfl

/-- A first slice has the header of the response. -/
theorem sameHeader_firstSlice (m : Message) (payload : Bytes) (exponent : Nat) :
    m.SameHeader (firstSlice m payload exponent).message := by
  unfold firstSlice
  refine .andThen (.andThen ?_ fun m => .setUnsigned m _ _) fun m => .setPayload m _
  split
  · exact .setUnsigned m _ _
  · exact .refl m

/-- The slices are sent under the token of the response. -/
theorem token_firstSlice {exponent : Nat} {first : Message}
    (hfirst : (firstSlice { m with payload := [] } m.payload exponent).toExcept = .ok first) :
    first.token = m.token := by
  rw [← Edit.message_of_toExcept hfirst]
  exact (sameHeader_firstSlice { m with payload := [] } _ _).token_eq

/-- A response that is cut keeps its header. -/
theorem sameHeader_send {m' : Message} (h : (s.send now peer m request?).1 = .ok m') :
    m.SameHeader m' := by
  rw [send_eq] at h
  split at h
  · split at h
    · cases h
    · next hfirst =>
      obtain rfl := Except.ok.inj h
      rw [← Edit.message_of_toExcept hfirst]
      exact .trans ⟨m.options, [], rfl⟩ (sameHeader_firstSlice _ _ _)
  · exact Except.ok.inj h ▸ .refl m

/-- A new download takes the place of the old one, and those that are over are forgotten. -/
theorem get?_startDownload (s : Transfers) (now : Instant) (key key' : ConversationKey)
    (d : Download) :
    (s.startDownload now key d).downloads.get? key' =
      if key = key' then some d
      else (s.downloads.get? key').filter fun d => now - d.touched < s.lifetime := by
  rw [startDownload, Table.get?_insert, Table.get?_filter]

/-- A response that is sent touches the download of another conversation only if it is cut after
that has rested for a lifetime. -/
theorem get?_send (hd : s.downloads.get? key = some d)
    (hcuts : s.Cuts m request? →
      (⟨peer, m.token⟩ : ConversationKey) ≠ key ∧ now - d.touched < s.lifetime) :
    (s.send now peer m request?).2.downloads.get? key = some d := by
  rw [send_eq]
  split
  · next hcut =>
    obtain ⟨hne, hlively⟩ := hcuts hcut
    split
    · exact hd
    · next first hfirst =>
      rw [get?_startDownload, token_firstSlice hfirst, if_neg hne, hd, Option.filter_some,
        if_pos (decide_eq_true hlively)]
  · exact hd

/-! ## How long a response is kept -/

/-- The block of a response body that an event asks for in a conversation. -/
def asked? (key : ConversationKey) : Event → Option Block
  | .receive peer m =>
    if peer = key.peer ∧ m.token = key.token ∧ m.isRequest ∧ m.block1? = none then m.block2?
    else none
  | .send .. => none

/-- Pieces that come in leave the downloads alone. -/
theorem downloads_receiveBlock (hrequest : m.isRequest) :
    (s.receiveBlock now peer m block).2.downloads = s.downloads := by
  have hprepared : (s.prepared now ⟨peer, m.token⟩ block).downloads = s.downloads := by
    unfold prepared
    split <;> rfl
  rw [receiveBlock_eq hrequest]
  dsimp only
  repeat' split
  all_goals first | rfl | exact hprepared

/-- A slice is asked for by a request that brings no piece. -/
theorem asked?_receive_iff : asked? key (.receive peer m) = some block ↔
    peer = key.peer ∧ m.token = key.token ∧ m.isRequest ∧ m.block1? = none ∧
      m.block2? = some block := by
  rw [asked?]
  split
  · next h => exact ⟨fun hblock => ⟨h.1, h.2.1, h.2.2.1, h.2.2.2, hblock⟩, fun h' => h'.2.2.2.2⟩
  · next h => exact ⟨nofun, fun h' => absurd ⟨h'.1, h'.2.1, h'.2.2.1, h'.2.2.2.1⟩ h⟩

/-- A request for a later block is served. -/
theorem receive_of_asked (s : Transfers) (now : Instant)
    (hasked : asked? key (.receive peer m) = some block)
    (hlater : block.number ≠ 0) : s.receive now peer m = s.serveBlock now peer m block := by
  obtain ⟨-, -, hrequest, hblock1, hblock2⟩ := asked?_receive_iff.mp hasked
  simp [receive, hrequest, hblock1, hblock2, Nat.pos_of_ne_zero hlater]

/-- A message that asks for no block of a conversation does not touch its download. -/
theorem get?_receive_of_not_asked (hnone : asked? key (.receive peer m) = none) :
    (s.receive now peer m).2.downloads.get? key = s.downloads.get? key := by
  have hne {block : Block} (hrequest : m.isRequest) (hblock1 : m.block1? = none)
      (hblock2 : m.block2? = some block) : (⟨peer, m.token⟩ : ConversationKey) ≠ key := by
    rintro rfl
    rw [asked?_receive_iff.mpr ⟨rfl, rfl, hrequest, hblock1, hblock2⟩] at hnone
    cases hnone
  rw [receive]
  split
  · next hrequest =>
    split
    · rw [downloads_receiveBlock hrequest]
    · next block hblock1 hblock2 =>
      split
      · exact get?_serveBlock_of_ne now (hne hrequest hblock1 hblock2)
      · rw [dropDownload, Table.get?_erase, if_neg (hne hrequest hblock1 hblock2)]
    · rfl
  · rfl

/-- The first exponent depends on the limits alone. -/
theorem SameLimits.firstExponent_eq {s' : Transfers} (h : SameLimits s s')
    (request? : Option Message) : s'.firstExponent request? = s.firstExponent request? := by
  rw [firstExponent, firstExponent, h.1]

/-- Whether a response is cut depends on the limits alone. -/
theorem SameLimits.cuts_iff {s' : Transfers} (h : SameLimits s s') :
    s'.Cuts m request? ↔ s.Cuts m request? := by
  rw [Cuts, Cuts, h.firstExponent_eq]

end Coap.Transfers
