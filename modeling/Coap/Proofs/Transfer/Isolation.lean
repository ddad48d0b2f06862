/-
# Conversations that do not interfere

All conversations share the two tables of transfers, and a conversation that starts a transfer
drops whatever has rested too long.  What a conversation sees of the tables is its own upload and
its own download.  An event of the conversation does the same to states that agree on these, and
an event of another one leaves them alone until they have rested for a lifetime, so the events of
the others can be left out of a history.
-/
import Coap.Proofs.Transfer.Downloads
import Coap.Proofs.Transfer.Reassembly

namespace Coap.Transfers

/-! ## What a conversation sees -/

/-- The conversation of an event. -/
def Event.key : Event → ConversationKey
  | .receive peer m => ⟨peer, m.token⟩
  | .send peer m _ => ⟨peer, m.token⟩

/-- What comes of an event: a verdict on a received message, or the message that leaves. -/
inductive Outcome
  | received (verdict : Verdict)
  | sent (result : Except SendFailure Message)
deriving DecidableEq

/-- What comes of an event. -/
def outcome (s : Transfers) (t : Instant) : Event → Outcome
  | .receive peer m => .received (s.receive t peer m).1
  | .send peer m request? => .sent (s.send t peer m request?).1

/-- What comes of the events of a conversation, in order. -/
def outcomes (s : Transfers) (key : ConversationKey) : History → List Outcome
  | [] => []
  | (t, event) :: rest =>
    if event.key = key then s.outcome t event :: outcomes (s.step t event) key rest
    else outcomes (s.step t event) key rest

/-- What is stored for a conversation was last touched less than a lifetime ago. -/
def Lively (s : Transfers) (key : ConversationKey) (t : Instant) : Prop :=
  (∀ u ∈ s.uploads.get? key, t - u.touched < s.lifetime) ∧
    ∀ d ∈ s.downloads.get? key, t - d.touched < s.lifetime

/-- Whether a transfer is lively can be told from its times. -/
instance {s : Transfers} {key : ConversationKey} {t : Instant} : Decidable (s.Lively key t) :=
  inferInstanceAs (Decidable (_ ∧ _))

/-- Whenever something happens in another conversation, what is stored for this one has not
rested for a lifetime. -/
def NeverIdle (s : Transfers) (key : ConversationKey) : History → Prop
  | [] => True
  | (t, event) :: rest =>
    (event.key ≠ key → s.Lively key t) ∧ NeverIdle (s.step t event) key rest

/-- Whether a transfer is never idle can be told step by step. -/
instance decidableNeverIdle (s : Transfers) (key : ConversationKey) :
    (history : History) → Decidable (s.NeverIdle key history)
  | [] => inferInstanceAs (Decidable True)
  | (t, event) :: rest =>
    have := decidableNeverIdle (s.step t event) key rest
    inferInstanceAs (Decidable (_ ∧ _))

/-- What is stored stays as it is, unless it has rested for a lifetime; then it may go. -/
def Spared {ν : Type} (lifetime : Duration) (t : Instant) (touched : ν → Instant)
    (stored stored' : Option ν) : Prop :=
  stored' = stored ∨ stored' = none ∧ ∃ v ∈ stored, lifetime ≤ t - touched v

/-- Two states are the same for a conversation. -/
structure Agree (key : ConversationKey) (s s' : Transfers) : Prop where
  limits : SameLimits s s'
  upload : s'.uploads.get? key = s.uploads.get? key
  download : s'.downloads.get? key = s.downloads.get? key

/-- Two results are the same for a conversation. -/
def Alike {α : Type} (key : ConversationKey) (r r' : α × Transfers) : Prop :=
  r'.1 = r.1 ∧ Agree key r.2 r'.2

variable {s s' : Transfers} {key : ConversationKey} {history : History} {t : Instant}
  {event : Event} {peer : Endpoint} {m : Message} {block : Block} {u : Upload} {d : Download}
  {request? : Option Message}

/-- A piece belongs to the conversation of its event. -/
theorem Event.key_eq_of_piece? {p : Piece} (h : piece? key (t, event) = some p) :
    event.key = key := by
  obtain ⟨rfl, -, htoken, -⟩ := piece?_eq_some_iff.mp h
  rw [Event.key, htoken]

/-- A slice is asked for in the conversation of its event. -/
theorem Event.key_eq_of_asked? (h : asked? key event = some block) : event.key = key := by
  cases event with
  | send => cases h
  | receive peer m =>
    obtain ⟨rfl, htoken, -⟩ := asked?_receive_iff.mp h
    rw [Event.key, htoken]

/-! ## Events of other conversations -/

/-- To forget what is over spares the rest. -/
theorem spared_filter {ν : Type} {lifetime : Duration} {touched : ν → Instant}
    (stored : Option ν) :
    Spared lifetime t touched stored (stored.filter fun v => t - touched v < lifetime) := by
  cases stored with
  | none => exact .inl rfl
  | some v =>
    by_cases hlively : t - touched v < lifetime
    · exact .inl (Option.filter_some.trans (if_pos (decide_eq_true hlively)))
    · refine .inr ⟨Option.filter_some.trans (if_neg ?_), v, rfl, Nat.le_of_not_lt hlively⟩
      simpa using hlively

/-- What is lively is spared as it is. -/
theorem Spared.eq_of_lively {ν : Type} {lifetime : Duration} {touched : ν → Instant}
    {stored stored' : Option ν} (h : Spared lifetime t touched stored stored')
    (hlively : ∀ v ∈ stored, t - touched v < lifetime) : stored' = stored := by
  rcases h with heq | ⟨-, v, hv, hidle⟩
  · exact heq
  · exact absurd (hlively v hv) (Nat.not_lt_of_le hidle)

/-- Uploads of others are spared. -/
theorem spared_upload (s : Transfers) (t : Instant) (hne : event.key ≠ key) :
    Spared s.lifetime t Upload.touched (s.uploads.get? key)
      ((s.step t event).uploads.get? key) := by
  rcases upload_cases s t event key with ⟨p, hp, -⟩ | ⟨-, hsame | hswept⟩
  · exact absurd (Event.key_eq_of_piece? hp) hne
  · exact .inl hsame
  · rw [hswept]
    exact spared_filter _

/-- Downloads of others are spared. -/
theorem spared_download (s : Transfers) (t : Instant) (hne : event.key ≠ key) :
    Spared s.lifetime t Download.touched (s.downloads.get? key)
      ((s.step t event).downloads.get? key) := by
  cases event with
  | receive peer m =>
    refine .inl (get?_receive_of_not_asked ?_)
    cases hasked : asked? key (.receive peer m) with
    | none => rfl
    | some block => exact absurd (Event.key_eq_of_asked? hasked) hne
  | send peer m request? =>
    rw [step, send_eq]
    split
    · split
      · exact .inl rfl
      · next first hfirst =>
        have hother : (⟨peer, first.token⟩ : ConversationKey) ≠ key := by
          rwa [token_firstSlice hfirst]
        rw [get?_startDownload, if_neg hother]
        exact spared_filter _
    · exact .inl rfl

/-- An event of another conversation makes no difference while nothing has rested too long. -/
theorem Agree.step_of_ne (h : Agree key s s') (hne : event.key ≠ key) (hlively : s.Lively key t) :
    Agree key (s.step t event) s' where
  limits := by
    obtain ⟨hexponent, hbody, hlifetime⟩ := h.limits
    obtain ⟨hexponent', hbody', hlifetime'⟩ := sameLimits_step s t event
    exact ⟨hexponent.trans hexponent'.symm, hbody.trans hbody'.symm,
      hlifetime.trans hlifetime'.symm⟩
  upload := h.upload.trans ((spared_upload s t hne).eq_of_lively hlively.1).symm
  download := h.download.trans ((spared_download s t hne).eq_of_lively hlively.2).symm

/-! ## Events of the conversation -/

/-- A refusal of too large a body depends on the limits alone. -/
theorem SameLimits.tooLarge_eq (h : SameLimits s s') (m : Message) (exponent : Nat) :
    s'.tooLarge m exponent = s.tooLarge m exponent := by
  rw [tooLarge, tooLarge, h.2.1]

/-- A piece is appended to the upload of its own key. -/
theorem Agree.append?_eq (h : Agree key s s') (block : Block) (payload : Bytes) :
    s'.append? key block payload = s.append? key block payload := by
  rw [append?, append?, h.upload]

/-- The upload of the key may be dropped. -/
theorem Agree.dropUpload (h : Agree key s s') :
    Agree key (s.dropUpload key) (s'.dropUpload key) :=
  ⟨h.limits, by rw [get?_dropUpload, get?_dropUpload, if_pos rfl, if_pos rfl], h.download⟩

/-- The upload of the key may be replaced. -/
theorem Agree.insertUpload (h : Agree key s s') (u : Upload) :
    Agree key { s with uploads := s.uploads.insert key u }
      { s' with uploads := s'.uploads.insert key u } :=
  ⟨h.limits, by rw [Table.get?_insert_self, Table.get?_insert_self], h.download⟩

/-- The upload of the key may be begun anew. -/
theorem Agree.prepared (h : Agree key s s') (t : Instant) (block : Block) :
    Agree key (s.prepared t key block) (s'.prepared t key block) := by
  unfold Transfers.prepared
  split
  · exact ⟨h.limits, by simp only [startUpload, Table.get?_insert_self], h.download⟩
  · exact h

/-- The download of the key may be dropped. -/
theorem Agree.dropDownload (h : Agree key s s') :
    Agree key (s.dropDownload key) (s'.dropDownload key) := by
  refine ⟨h.limits, h.upload, ?_⟩
  rw [Transfers.dropDownload, Transfers.dropDownload, Table.get?_erase, Table.get?_erase,
    if_pos rfl, if_pos rfl]

/-- The download of the key may be served. -/
theorem Agree.served (h : Agree key s s') (t : Instant) (d : Download) (slice : Block) :
    Agree key (s.served t key d slice) (s'.served t key d slice) := by
  unfold Transfers.served
  split
  · exact ⟨h.limits, h.upload, by rw [Table.get?_insert_self, Table.get?_insert_self]⟩
  · exact h.dropDownload

/-- The download of the key may be begun. -/
theorem Agree.startDownload (h : Agree key s s') (t : Instant) (d : Download) :
    Agree key (s.startDownload t key d) (s'.startDownload t key d) :=
  ⟨h.limits, h.upload, by rw [get?_startDownload, get?_startDownload, if_pos rfl, if_pos rfl]⟩

/-- A piece has the same effect on states that agree about its conversation. -/
theorem Agree.receiveBlock (h : Agree ⟨peer, m.token⟩ s s') (t : Instant) (block : Block)
    (hrequest : m.isRequest) :
    Alike ⟨peer, m.token⟩ (s.receiveBlock t peer m block) (s'.receiveBlock t peer m block) := by
  have hprepared := h.prepared t block
  rw [receiveBlock_eq hrequest, receiveBlock_eq hrequest]
  dsimp only
  rw [h.limits.announcesTooMuch_eq, h.limits.tooLarge_eq, h.limits.1, hprepared.append?_eq]
  split
  · exact ⟨rfl, h.dropUpload⟩
  · split
    · exact ⟨rfl, h.dropUpload⟩
    · split
      · exact ⟨rfl, hprepared.dropUpload⟩
      · rw [hprepared.limits.exceeds_eq, hprepared.limits.tooLarge_eq]
        split
        · exact ⟨rfl, hprepared.dropUpload⟩
        · split
          · exact ⟨rfl, hprepared.insertUpload _⟩
          · exact ⟨rfl, hprepared.dropUpload⟩

/-- The call for a slice has the same effect on them. -/
theorem Agree.serveBlock (h : Agree ⟨peer, m.token⟩ s s') (t : Instant) (block : Block) :
    Alike ⟨peer, m.token⟩ (s.serveBlock t peer m block) (s'.serveBlock t peer m block) := by
  cases hd : s.downloads.get? ⟨peer, m.token⟩ with
  | none =>
    have hd' := h.download.trans hd
    simp only [Transfers.serveBlock, hd, hd']
    exact ⟨rfl, h⟩
  | some d =>
    rw [serveBlock_eq hd, serveBlock_eq (h.download.trans hd), h.limits.1]
    dsimp only
    split
    · exact ⟨rfl, h⟩
    · split
      · exact ⟨rfl, h⟩
      · exact ⟨rfl, h.served t d _⟩

/-- All that comes in has the same effect on them. -/
theorem Agree.receive (h : Agree ⟨peer, m.token⟩ s s') (t : Instant) :
    Alike ⟨peer, m.token⟩ (s.receive t peer m) (s'.receive t peer m) := by
  rw [Transfers.receive, Transfers.receive]
  split
  · next hrequest =>
    split
    · exact h.receiveBlock t _ hrequest
    · split
      · exact h.serveBlock t _
      · exact ⟨rfl, h.dropDownload⟩
    · exact ⟨rfl, h⟩
  · exact ⟨rfl, h⟩

/-- What goes out has the same effect as well. -/
theorem Agree.send (h : Agree ⟨peer, m.token⟩ s s') (t : Instant) (request? : Option Message) :
    Alike ⟨peer, m.token⟩ (s.send t peer m request?) (s'.send t peer m request?) := by
  rw [send_eq, send_eq, if_congr h.limits.cuts_iff rfl rfl, h.limits.firstExponent_eq]
  split
  · split
    · exact ⟨rfl, h⟩
    · next first hfirst =>
      rw [token_firstSlice hfirst]
      exact ⟨rfl, h.startDownload t _⟩
  · exact ⟨rfl, h⟩

/-- **What an event of the conversation does to states that agree.** -/
theorem Agree.step (h : Agree key s s') (hkey : event.key = key) :
    s'.outcome t event = s.outcome t event ∧ Agree key (s.step t event) (s'.step t event) := by
  subst hkey
  cases event with
  | receive peer m => exact ⟨congrArg Outcome.received (h.receive t).1, (h.receive t).2⟩
  | send peer m request? =>
    exact ⟨congrArg Outcome.sent (h.send t request?).1, (h.send t request?).2⟩

/-! ## Histories without the others -/

/-- The events of a conversation. -/
def ownEvents (key : ConversationKey) (history : History) : History :=
  history.filter fun e => e.2.key = key

/-- **The events of other conversations can be left out.** -/
theorem Agree.run (h : Agree key s s') (hidle : s.NeverIdle key history) :
    s'.outcomes key (ownEvents key history) = s.outcomes key history ∧
      Agree key (s.run history) (s'.run (ownEvents key history)) := by
  induction history generalizing s s' with
  | nil => exact ⟨rfl, h⟩
  | cons e rest ih =>
    obtain ⟨t, event⟩ := e
    obtain ⟨hlively, hrest⟩ := hidle
    by_cases hkey : event.key = key
    · have hown : ownEvents key ((t, event) :: rest) = (t, event) :: ownEvents key rest :=
        List.filter_cons_of_pos (decide_eq_true hkey)
      obtain ⟨houtcome, hstep⟩ := h.step (t := t) hkey
      obtain ⟨houtcomes, hrun⟩ := ih hstep hrest
      rw [hown, outcomes, outcomes, if_pos hkey, if_pos hkey, houtcome, houtcomes]
      exact ⟨rfl, hrun⟩
    · have hown : ownEvents key ((t, event) :: rest) = ownEvents key rest :=
        List.filter_cons_of_neg (by simpa using hkey)
      rw [hown, outcomes, if_neg hkey]
      exact ih (h.step_of_ne hkey (hlively hkey)) hrest

/-! ## When a transfer was last touched -/

/-- A block that comes for a conversation touches its upload or drops it. -/
theorem touched_upload {p : Piece} (hpiece : piece? key (t, event) = some p)
    (hu : (s.step t event).uploads.get? key = some u) : u.touched = t := by
  obtain ⟨rfl, rfl, htoken, hrequest, hblock⟩ := piece?_eq_some_iff.mp hpiece
  have hkey : (⟨key.peer, p.message.token⟩ : ConversationKey) = key := by rw [htoken]
  rw [step, receive_of_block1? hrequest hblock] at hu
  have hcases := receiveBlock_cases s p.time key.peer p.block hrequest
  generalize s.receiveBlock p.time key.peer p.message p.block = result at hu hcases
  obtain ⟨verdict, s'⟩ := result
  dsimp only at hu hcases
  cases hcases with
  | refused _ hgone | completed _ _ hgone =>
    rw [hkey, hu] at hgone
    cases hgone
  | continued _ _ _ hkept =>
    rw [hkey, hu] at hkept
    rw [Option.some.inj hkept]

/-- An event of a conversation that brings no block leaves its upload alone. -/
theorem upload_step_of_no_piece (hkey : event.key = key) (hnone : piece? key (t, event) = none) :
    (s.step t event).uploads.get? key = s.uploads.get? key := by
  subst hkey
  obtain ⟨peer, m, block, rfl, hrequest, hblock, -⟩ | ⟨-, downloads, hstep⟩ := step_cases s t event
  · have hpiece : piece? ⟨peer, m.token⟩ (t, .receive peer m) = some ⟨t, block, m⟩ :=
      piece?_eq_some_iff.mpr ⟨rfl, rfl, rfl, hrequest, hblock⟩
    rw [Event.key, hpiece] at hnone
    cases hnone
  · rw [hstep]

/-- A reply has no options of its own. -/
theorem not_has_replyTo (m : Message) (status : Status) (number : OptionNumber) :
    ¬ (m.replyTo status).options.has number := by
  rw [(replyTo_spec m status).2.2.1]
  exact Bool.false_ne_true

/-- An event is answered with a slice of what is stored for a conversation. -/
def Serves (s : Transfers) (key : ConversationKey) (t : Instant) (event : Event) : Prop :=
  (asked? key event).isSome ∧
    ∃ reply, s.outcome t event = .received (.reply reply) ∧ reply.options.has .block2

/-- Every slice that is served touches the download or ends it. -/
theorem touched_of_asked (hasked : asked? key event = some block)
    (hd : (s.step t event).downloads.get? key = some d) :
    d.touched = t ∨ s.downloads.get? key = some d ∧ ¬ s.Serves key t event := by
  have hplain {peer : Endpoint} {m : Message} {status : Status}
      (hreply : (s.receive t peer m).1 = .reply (m.replyTo status)) :
      ¬ s.Serves key t (.receive peer m) := by
    rintro ⟨-, reply, houtcome, hslice⟩
    cases hreply.symm.trans (Outcome.received.inj houtcome)
    exact not_has_replyTo m status _ hslice
  cases event with
  | send => cases hasked
  | receive peer m =>
    obtain ⟨rfl, htoken, hrequest, hblock1, hblock2⟩ := asked?_receive_iff.mp hasked
    have hkey : (⟨key.peer, m.token⟩ : ConversationKey) = key := by rw [htoken]
    rw [step] at hd
    by_cases hzero : block.number = 0
    · -- to ask for the first block is to begin anew
      have hdropped : s.receive t key.peer m = (.forward m, s.dropDownload key) := by
        simp [receive, hrequest, hblock1, hblock2, hzero, hkey]
      rw [hdropped, dropDownload, Table.get?_erase, if_pos rfl] at hd
      cases hd
    · have hserve := receive_of_asked s t hasked hzero
      rw [hserve] at hd
      cases hstored : s.downloads.get? key with
      | none =>
        rw [serveBlock, hkey, hstored] at hd
        rw [hstored] at hd
        cases hd
      | some d' =>
        have hcases := serveBlock_cases t hblock2 (hkey.symm ▸ hstored)
        rw [← hserve] at hd hcases
        generalize hverdict : (s.receive t key.peer m).1 = verdict at hcases
        generalize (s.receive t key.peer m).2 = s' at hd hcases
        cases hcases with
        | beyond | uncounted => exact .inr ⟨hstored ▸ hd, hplain hverdict⟩
        | slice =>
          rw [get?_served, if_pos hkey] at hd
          split at hd
          · cases hd
            exact .inl rfl
          · cases hd

/-- A download that is there after an event was touched by it, or was there before and the event
did not use it. -/
theorem touched_download (hd : (s.step t event).downloads.get? key = some d) :
    d.touched = t ∨ s.downloads.get? key = some d ∧ ¬ s.Serves key t event := by
  cases hasked : asked? key event with
  | some block => exact touched_of_asked hasked hd
  | none =>
    have hunused : ¬ s.Serves key t event := by
      rintro ⟨hsome, -⟩
      rw [hasked] at hsome
      cases hsome
    cases event with
    | receive peer m => exact .inr ⟨get?_receive_of_not_asked hasked ▸ hd, hunused⟩
    | send peer m request? =>
      rw [step, send_eq] at hd
      split at hd
      · split at hd
        · exact .inr ⟨hd, hunused⟩
        · rw [get?_startDownload] at hd
          split at hd
          · cases hd
            exact .inl rfl
          · exact .inr ⟨(Option.filter_eq_some_iff.mp hd).1, hunused⟩
      · exact .inr ⟨hd, hunused⟩

/-! ## Isolation -/

/-- **Transfers do not interfere.**  If what is stored for a conversation never rests for a
lifetime before something happens in another one, then the verdicts on its messages and the
messages that leave are those of the history in which nothing but its own events happens at the
same times, and so is what is stored for it in the end.  At any time, an event of another
conversation leaves both of its transfers alone, or drops one that was last touched a lifetime ago
or earlier.  Every block that comes for it and every slice that it gets touches or ends its
transfer, and it is touched at no other event. -/
theorem isolated (c : Config) (key : ConversationKey) (history : History) :
    let s := (start c).run history
    let own := ownEvents key history
    ((start c).NeverIdle key history →
      (start c).outcomes key history = (start c).outcomes key own ∧
        s.uploads.get? key = ((start c).run own).uploads.get? key ∧
        s.downloads.get? key = ((start c).run own).downloads.get? key) ∧
    ∀ t event,
      let s' := s.step t event
      (event.key ≠ key →
        Spared c.transferLifetime t Upload.touched (s.uploads.get? key) (s'.uploads.get? key) ∧
        Spared c.transferLifetime t Download.touched (s.downloads.get? key)
          (s'.downloads.get? key)) ∧
      (event.key = key →
        (if (piece? key (t, event)).isSome then ∀ u ∈ s'.uploads.get? key, u.touched = t
          else s'.uploads.get? key = s.uploads.get? key) ∧
        ∀ d ∈ s'.downloads.get? key,
          d.touched = t ∨ d ∈ s.downloads.get? key ∧ ¬ s.Serves key t event) := by
  intro s own
  have hlifetime : s.lifetime = c.transferLifetime := (sameLimits_run (start c) history).2.2
  refine ⟨fun hidle => ?_, fun t event => ⟨fun hne => ?_, fun hkey => ⟨?_, ?_⟩⟩⟩
  · obtain ⟨houtcomes, hagree⟩ := Agree.run ⟨⟨rfl, rfl, rfl⟩, rfl, rfl⟩ hidle
    exact ⟨houtcomes.symm, hagree.upload.symm, hagree.download.symm⟩
  · rw [← hlifetime]
    exact ⟨spared_upload s t hne, spared_download s t hne⟩
  · cases hpiece : piece? key (t, event) with
    | some p => exact fun u hu => touched_upload hpiece hu
    | none => exact upload_step_of_no_piece hkey hpiece
  · exact fun d hd => touched_download hd

/-- Two peers send a body in two blocks each and fetch one in two slices, with the same token and
always in turn.  The first one gets what it would get alone, although the other one starts its
transfers just before those of the first have rested for a lifetime. -/
theorem isolated_two :
    let key : ConversationKey := ⟨⟨1⟩, .empty⟩
    let put (value : UInt32) (length : Nat) : Message :=
      { type := .confirmable, code := .request .put, id := 7,
        options := ⟨[⟨.block1, .unsigned value⟩], by simp⟩, payload := List.replicate length 1 }
    let get : Message :=
      { type := .confirmable, code := .request .get, id := 8,
        options := ⟨[⟨.block2, .unsigned 22⟩], by decide⟩ }
    let response : Message :=
      { type := .acknowledgement, code := .response .content, id := 8,
        payload := List.replicate 1030 2 }
    let both (t : Instant) (event : Endpoint → Event) : History :=
      [(t, event ⟨1⟩), (t + 246999, event ⟨2⟩)]
    let history := both 0 (.receive · (put 9 32)) ++ both 246999 (.receive · (put 32 4)) ++
      both 500000 (.send · response none) ++ both 746999 (.receive · get)
    let outcomes := (start .standard).outcomes key history
    (start .standard).NeverIdle key history ∧
    outcomes = (start .standard).outcomes key [(0, .receive ⟨1⟩ (put 9 32)),
      (246999, .receive ⟨1⟩ (put 32 4)), (500000, .send ⟨1⟩ response none),
      (746999, .receive ⟨1⟩ get)] ∧
    outcomes[1]? =
      some (.received (.forward { put 32 4 with payload := List.replicate 36 1 })) ∧
    outcomes[3]? = some (.received (.reply { response with
      options := get.options, payload := List.replicate 6 2 })) := by
  intro key put get response both history outcomes
  have hidle : (start .standard).NeverIdle key history := by decide +kernel
  obtain ⟨houtcomes, -, -⟩ := (isolated .standard key history).1 hidle
  refine ⟨hidle, houtcomes, ?_⟩
  change outcomes = _ at houtcomes
  rw [houtcomes]
  exact ⟨by decide +kernel, by decide +kernel⟩

end Coap.Transfers
