/-
# The latest message under an ID

The ID of a message is reserved for it, and as long as it is, no other message for the peer gets
the ID.  So the message stays the latest under its ID, however often it is repeated and whatever
else is sent: a later one with the same ID went out when the reservation was over
(`guards_play`).  This is shown here for the moment at which the message has gone out, and from
there for everything that may follow.
-/
import Coap.Proofs.Engine.Acknowledging
import Coap.Proofs.Engine.Notices
import Coap.Proofs.Exchange.OpenIds

namespace Coap

/-! ## The layers of exchanges -/

namespace Outgoing

variable {s : Outgoing} {t expiry : Instant} {peer : Endpoint} {m m' : Message} {id : MessageId}

/-- A message does not get an ID that is reserved. -/
theorem ne_of_send (h : (s.send t peer m).1 = .ok m') (hnumbered : m'.isNumbered = true)
    (hreserved : s.ids.Reserves peer id expiry) (ht : t < expiry) : m'.id ≠ id := by
  have hcases := send_cases s t peer m
  rw [h] at hcases
  generalize (s.send t peer m).2 = s' at hcases
  rintro rfl
  cases hcases with
  | plain htype => rcases htype with htype | htype <;> simp [Message.isNumbered, htype] at hnumbered
  | numbered htype hissue => exact hreserved.not_issued ht (congrArg Prod.fst hissue)
  | opened htype hissue => exact hreserved.not_issued ht (congrArg Prod.fst hissue)

end Outgoing

/-- A signal is neither confirmable nor non-confirmable, so it gets no number. -/
theorem Message.IsSignal.not_isNumbered {m : Message} (h : m.IsSignal) :
    ¬ m.isNumbered = true := by
  obtain ⟨id, rfl | rfl⟩ := h <;> exact Bool.false_ne_true

namespace Engine

variable {e e' : Engine} {peer : Endpoint} {m : Message} {lifetime : Duration}
  {expiry : Instant} {before : List (Instant × Endpoint × Message)}

/-! ## The outbox -/

/-- While the outbox is open, it grows by all that is transmitted. -/
theorem outbox_transmitAll (messages : List (Endpoint × Message)) (e : Engine) :
    (e.transmitAll messages).outbox =
      e.outbox ++ (if e.outboxOpen then messages else []).map (e.now, ·) := by
  induction messages generalizing e with
  | nil => simp [transmitAll]
  | cons x rest ih =>
    show ((e.transmit x.1 x.2).transmitAll rest).outbox = _
    rw [ih]
    unfold transmit
    split
    · next hopen =>
      have hstill : (e.note (.sent x.1 x.2)).outboxOpen = true := hopen
      rw [if_pos hstill, outbox_note, List.append_assoc]
      rfl
    · rfl

/-- A message goes out as the layer of exchanges says, or not at all. -/
theorem exists_sendNumbered (e : Engine) (peer : Endpoint) (m : Message) : ∃ messages,
    (e.sendNumbered peer m).2 =
      { e with outgoing := (e.outgoing.send e.now peer m).2 }.transmitAll messages ∧
    ∀ p m', (p, m') ∈ messages → p = peer ∧ (e.outgoing.send e.now peer m).1 = .ok m' := by
  unfold sendNumbered
  simp only
  cases hresult : (e.outgoing.send e.now peer m).1 with
  | error failure => exact ⟨[], rfl, fun p m' hm' => absurd hm' List.not_mem_nil⟩
  | ok sent =>
    refine ⟨[(peer, sent)], ?_, fun p m' hm' => ?_⟩
    · simp only
      split
      · rfl
      · next hclosed => exact (if_neg hclosed).symm
    · obtain ⟨rfl, rfl⟩ := Prod.mk.inj (List.mem_singleton.1 hm')
      exact ⟨rfl, rfl⟩

/-! ## Messages that stay the latest -/

/-- The latest confirmable or non-confirmable message for a peer under an ID, and when it was
sent. -/
def latestUnder? (e : Engine) (k : MessageKey) : Option (Instant × Message) :=
  (e.outbox.filter fun x => x.2.1 = k.peer ∧ x.2.2.isNumbered ∧ x.2.2.id = k.id).getLast?.map
    fun x => (x.1, x.2.2)

/-- What holds of every node that was started: IDs are reserved for a lifetime, what is repeated
has the ID of its exchange, and what is kept for duplicates are acknowledgements. -/
structure Orderly (lifetime : Duration) (e : Engine) : Prop where
  lifetime : e.outgoing.ids.lifetime = lifetime
  repeats : ∀ k m, e.outgoing.openMessage? k = some m → m.id = k.id
  sound : e.incoming.Sound

/-- A message for a peer, whose ID is reserved up to a time, is the latest under the ID since the
outbox held the given messages; any other one was sent when the time was over. -/
structure Guards (lifetime : Duration) (peer : Endpoint) (m : Message) (expiry : Instant)
    (before : List (Instant × Endpoint × Message)) (e : Engine) : Prop
    extends Orderly lifetime e where
  reserved : e.now < expiry → e.outgoing.ids.Reserves peer m.id expiry
  alone : e.now < expiry → ∀ m', e.outgoing.openMessage? ⟨peer, m.id⟩ = some m' → m' = m
  since : ∃ later, e.outbox = before ++ later ∧ ∀ t m', (t, peer, m') ∈ later →
    m'.isNumbered = true → m'.id = m.id → m' = m ∨ expiry ≤ t

namespace Guards

/-- The layers of exchanges take notice of something, and messages go out. -/
theorem exchanging (h : Guards lifetime peer m expiry before e) (outgoing : Outgoing)
    (incoming : Incoming) (messages : List (Endpoint × Message))
    (hlifetime : outgoing.ids.lifetime = e.outgoing.ids.lifetime)
    (hrepeats : ∀ k m', outgoing.openMessage? k = some m' →
      e.outgoing.openMessage? k = some m' ∨ m'.id = k.id ∧
        (e.now < expiry → k ≠ ⟨peer, m.id⟩))
    (hsound : e.incoming.Sound → incoming.Sound)
    (hreserved : e.now < expiry → e.outgoing.ids.Reserves peer m.id expiry →
      outgoing.ids.Reserves peer m.id expiry)
    (hmessages : e.now < expiry → ∀ m', (peer, m') ∈ messages → m'.isNumbered = true →
      m'.id = m.id → m' = m) :
    Guards lifetime peer m expiry before ({ e with outgoing, incoming }.transmitAll messages) := by
  have houtbox := outbox_transmitAll messages { e with outgoing, incoming }
  obtain ⟨log, hlog⟩ := transmitAll_frame messages { e with outgoing, incoming }
  rw [hlog] at houtbox ⊢
  refine { lifetime := hlifetime.trans h.lifetime, repeats := ?_, sound := hsound h.sound,
           reserved := ?_, alone := ?_, since := ?_ }
  · exact fun k m' hm' => (hrepeats k m' hm').elim (h.repeats k m') And.left
  · exact fun hnow => hreserved hnow (h.reserved hnow)
  · exact fun hnow m' hm' => (hrepeats _ m' hm').elim (h.alone hnow m')
      fun hnew => absurd rfl (hnew.2 hnow)
  · obtain ⟨later, hlater, hothers⟩ := h.since
    refine ⟨_, houtbox.trans ((congrArg (· ++ _) hlater).trans (List.append_assoc ..)), ?_⟩
    intro t m' hm' hnumbered hid
    rcases List.mem_append.1 hm' with hm' | hm'
    · exact hothers t m' hm' hnumbered hid
    · -- what is sent now is sent while the ID is reserved, or later
      obtain ⟨x, hx, hpair⟩ := List.mem_map.1 hm'
      obtain ⟨rfl, rfl⟩ := Prod.mk.inj hpair
      have hx : (peer, m') ∈ messages := by
        split at hx
        · exact hx
        · cases hx
      rcases Nat.lt_or_ge e.now expiry with hnow | hnow
      · exact .inl (hmessages hnow m' hx hnumbered hid)
      · exact .inr hnow

/-- Messages go out that have no IDs of their own. -/
theorem transmitAll (h : Guards lifetime peer m expiry before e)
    (messages : List (Endpoint × Message)) (hm : ∀ x ∈ messages, ¬ x.2.isNumbered = true) :
    Guards lifetime peer m expiry before (e.transmitAll messages) :=
  h.exchanging _ _ messages rfl (fun _ _ => .inl) id (fun _ h => h)
    fun _ _ hm' hnumbered => absurd hnumbered (hm _ hm')

/-- The layer of acknowledgements takes notice of something. -/
theorem incoming (h : Guards lifetime peer m expiry before e) (event : Incoming.Event) :
    Guards lifetime peer m expiry before
      { e with incoming := e.incoming.step e.now event } :=
  h.exchanging _ _ [] rfl (fun _ _ => .inl) Incoming.sound_step (fun _ h => h)
    fun _ _ hm' => absurd hm' List.not_mem_nil

/-- Another message gets another ID as long as this one is reserved. -/
theorem sendNumbered (h : Guards lifetime peer m expiry before e) (p : Endpoint) (m₀ : Message) :
    Guards lifetime peer m expiry before (e.sendNumbered p m₀).2 := by
  obtain ⟨messages, hsent, hmessages⟩ := exists_sendNumbered e p m₀
  rw [hsent]
  have hother {m' : Message} (hnow : e.now < expiry) (hpeer : p = peer)
      (hsent : (e.outgoing.send e.now p m₀).1 = .ok m') (hnumbered : m'.isNumbered = true) :
      m'.id ≠ m.id :=
    Outgoing.ne_of_send hsent hnumbered (hpeer ▸ h.reserved hnow) hnow
  have hlifetime : (e.outgoing.step e.now (.send p m₀)).ids.lifetime = e.outgoing.ids.lifetime :=
    Outgoing.lifetime_step
  refine h.exchanging _ _ messages hlifetime (fun k m' hm' => ?_) id
    (fun hnow hreserved => Outgoing.reserves_step (.send p m₀) hreserved hnow)
    (fun hnow m' hm' hnumbered => ?_)
  · refine (Outgoing.openMessage?_send hm').imp_right ?_
    rintro ⟨htype, id, hsent, rfl, rfl⟩
    refine ⟨rfl, fun hnow hkey => ?_⟩
    obtain ⟨hpeer, hid⟩ := MessageKey.mk.inj hkey
    exact hother hnow hpeer hsent (by simp [Message.isNumbered, htype]) hid
  · obtain ⟨hpeer, hresult⟩ := hmessages peer m' hm'
    exact fun hid => absurd hid (hother hnow hpeer.symm hresult hnumbered)

end Guards

/-- The clock does not go back, and the latest message under an ID stays it. -/
def Keeps (lifetime : Duration) (peer : Endpoint) (m : Message) (expiry : Instant)
    (before : List (Instant × Endpoint × Message)) (e e' : Engine) : Prop :=
  e.now ≤ e'.now ∧
    (Guards lifetime peer m expiry before e → Guards lifetime peer m expiry before e')

namespace Keeps

/-- Silent steps add nothing to the outbox. -/
theorem silent (h : Silent e e') : Keeps lifetime peer m expiry before e e' := by
  refine ⟨Nat.le_of_eq h.now.symm, fun hg => ?_⟩
  refine { lifetime := (congrArg _ h.ids).trans hg.lifetime, repeats := ?_, sound := ?_,
           reserved := ?_, alone := ?_, since := ?_ }
  · exact fun k m' hm' => hg.repeats k m' (h.repeats k m' hm')
  · rw [h.incoming]
    exact hg.sound
  · rw [h.now, h.ids]
    exact hg.reserved
  · rw [h.now]
    exact fun hnow m' hm' => hg.alone hnow m' (h.repeats _ m' hm')
  · rw [h.outbox]
    exact hg.since

/-- The clock goes on, or it becomes known that the outbox is gone, or requests wait. -/
theorem of_same (e : Engine) {now : Instant} (hnow : e.now ≤ now) (outboxOpen : Bool)
    (delayed : List Delayed) :
    Keeps lifetime peer m expiry before e { e with now, outboxOpen, delayed } :=
  ⟨hnow, fun h => ⟨⟨h.lifetime, h.repeats, h.sound⟩,
    fun ht => h.reserved (Nat.lt_of_le_of_lt hnow ht),
    fun ht => h.alone (Nat.lt_of_le_of_lt hnow ht), h.since⟩⟩

/-- Nothing that is transmitted takes time. -/
theorem now_transmitAll (messages : List (Endpoint × Message)) (e : Engine) :
    (e.transmitAll messages).now = e.now := by
  obtain ⟨log, hlog⟩ := transmitAll_frame messages e
  rw [hlog]

/-- The layers take notice of something, and messages go out that leave the latest one alone. -/
theorem of_guards (h : Guards lifetime peer m expiry before e →
      Guards lifetime peer m expiry before e') (hnow : e'.now = e.now) :
    Keeps lifetime peer m expiry before e e' :=
  ⟨Nat.le_of_eq hnow.symm, h⟩

/-- A message that is numbered does not displace the latest one of another ID. -/
theorem sendNumbered (e : Engine) (p : Endpoint) (m₀ : Message) :
    Keeps lifetime peer m expiry before e (e.sendNumbered p m₀).2 := by
  refine of_guards (·.sendNumbered p m₀) ?_
  obtain ⟨messages, hsent, -⟩ := exists_sendNumbered e p m₀
  rw [hsent, now_transmitAll]

/-- A message that is not numbered displaces none. -/
theorem transmit (e : Engine) (p : Endpoint) {m₀ : Message} (hm : ¬ m₀.isNumbered = true) :
    Keeps lifetime peer m expiry before e (e.transmit p m₀) := by
  refine of_guards (fun h => h.transmitAll [(p, m₀)] fun x hx => ?_)
    (now_transmitAll [(p, m₀)] e)
  rwa [List.mem_singleton.1 hx]

/-- So it is for all that is sent. -/
theorem frame : SendingFrame (Keeps lifetime peer m expiry before) fun _ _ => True where
  header _ _ := trivial
  trans h h' := ⟨Nat.le_trans h.1 h'.1, h'.2 ∘ h.2⟩
  silent := silent
  rejected e p id := transmit e p (Message.IsSignal.not_isNumbered ⟨id, .inr rfl⟩)
  reliably e p m₀ _ := by
    have hsent : Keeps lifetime peer m expiry before
        { e with incoming := (e.incoming.send p m₀).2 } _ :=
      sendNumbered _ p (e.incoming.send p m₀).1
    exact ⟨hsent.1, fun h => hsent.2 (h.incoming (.send p m₀))⟩
  repeated e := by
    refine of_guards (fun h => ?_) (now_transmitAll _ _)
    have hlifetime : (e.outgoing.step e.now .purge).ids.lifetime = e.outgoing.ids.lifetime :=
      Outgoing.lifetime_step
    refine h.exchanging (e.outgoing.fire e.outboxOpen e.now).2 _ _ hlifetime
      (fun k m' hm' => .inl (Outgoing.openMessage?_fire hm')) id
      (fun hnow hreserved => Outgoing.reserves_step .purge hreserved hnow)
      fun hnow m' hm' _ hid => ?_
    -- what is repeated is the message of an open exchange, under its own ID
    obtain ⟨id, hopened⟩ := Outgoing.open_of_fire hm'
    have hsame : m'.id = id := h.repeats _ _ hopened
    exact h.alone hnow m' (by rw [← hid, hsame]; exact hopened)
  swept e := by
    unfold Engine.sweepDue
    split
    · refine of_guards (fun h => ?_) (now_transmitAll _ _)
      refine (h.incoming .sweep).transmitAll _ fun x hx => ?_
      exact (Incoming.signal_of_sweep x hx).not_isNumbered
    · exact silent (.refl e)
  clock e now hnow := of_same e hnow e.outboxOpen e.delayed
  closed e := of_same e (Nat.le_refl _) false e.delayed

/-- What the exchanges learn from a message does not displace it. -/
theorem heard (e : Engine) (p : Endpoint) (m₀ : Message) :
    Keeps lifetime peer m expiry before e (e.heard p m₀) := by
  have hclosed : Keeps lifetime peer m expiry before e _ := silent (.closed e p m₀)
  unfold Engine.heard
  simp only
  split
  · refine of_guards (fun h => ?_) (now_transmitAll _ _)
    refine ((hclosed.2 h).incoming (.receive p m₀)).transmitAll _ fun x hx => ?_
    obtain ⟨answer, hanswer, rfl⟩ := List.mem_map.1 hx
    rcases Incoming.sent_receive hanswer with hsignal | hstored
    · exact hsignal.not_isNumbered
    · obtain ⟨expires, hget⟩ := hstored
      have htype := (h.sound _ _ expires hget).1
      simp [Message.isNumbered, htype]
  · exact hclosed

/-- A rejection does not displace the latest message. -/
theorem reject (e : Engine) (p : Endpoint) (fault : Datagram.DecodeFault) :
    Keeps lifetime peer m expiry before e (e.reject p fault) := by
  cases fault with
  | malformed id? =>
    cases id? with
    | none => exact silent (.refl e)
    | some id => exact frame.rejected e p id
  | badOption id token type number fault =>
    cases type with
    | confirmable =>
      refine transmit e p ?_
      rw [Message.isNumbered, (sameHeader_badOptionReply .acknowledgement id token fault).type_eq]
      exact Bool.false_ne_true
    | nonConfirmable => exact sendNumbered e p _
    | acknowledgement => exact silent (.refl e)
    | reset => exact silent (.refl e)

/-- **The latest message under an ID stays it**, whatever happens. -/
theorem after {turn : Turn} (htimely : turn.event.Timely e) :
    Keeps lifetime peer m expiry before e (e.after turn) := by
  have hunder : Keeps lifetime peer m expiry before e (e.under turn.service) :=
    ⟨Nat.le_refl _, fun h => ⟨⟨h.lifetime, h.repeats, h.sound⟩, h.reserved, h.alone, h.since⟩⟩
  have hpasses : Passes (Keeps lifetime peer m expiry before) (e.under turn.service) _
      (e.after turn) := frame.passes_step
    (fun e delayed => of_same e (Nat.le_refl _) e.outboxOpen delayed) htimely
    (.of_full fun _ => trivial) (fun p m₀ _ => heard _ p m₀) (fun p fault _ => reject _ p fault)
    (fun p m₀ r _ => frame.submit _ p m₀ r fun _ _ => trivial)
  exact frame.trans hunder
    (hpasses.across (fun a _ => frame.sendThrough a.node a.peer trivial _) frame.trans).1

/-- It is the latest one throughout, until its ID expires. -/
theorem play {turns : List Turn} (htimely : e.Timely turns) :
    Keeps lifetime peer m expiry before e (e.play turns) := by
  induction turns generalizing e with
  | nil => exact silent (.refl e)
  | cons turn rest ih => exact frame.trans (after htimely.1) (ih htimely.2)

end Keeps

/-- At the start nothing has been sent. -/
theorem orderly_start (c : Config) (chances : Chances) (service : Service)
    (resources : List (String × Resource)) :
    (start c chances service resources).Orderly c.exchangeLifetime where
  lifetime := rfl
  repeats _ _ hm := by cases hm
  sound := Incoming.sound_start c

namespace Orderly

/-- Nothing is said of a reservation that is over. -/
theorem guards (h : e.Orderly lifetime) (peer : Endpoint) (m : Message) :
    Guards lifetime peer m 0 [] e where
  toOrderly := h
  reserved hnow := absurd hnow (Nat.not_lt_zero _)
  alone hnow := absurd hnow (Nat.not_lt_zero _)
  since := ⟨e.outbox, rfl, fun t _ _ _ _ => .inr (Nat.zero_le t)⟩

/-- Handlers and subscriptions do not matter. -/
theorem serving (h : e.Orderly lifetime) (service : Service) (subscriptions : Subscriptions) :
    Orderly lifetime { e with service, subscriptions } :=
  ⟨h.lifetime, h.repeats, h.sound⟩

/-- Order is kept where all messages are. -/
theorem of_keeps (h : e.Orderly lifetime)
    (hkeeps : ∀ m, Keeps lifetime ⟨0⟩ m 0 [] e e') : e'.Orderly lifetime :=
  ((hkeeps (.emptyAck 0)).2 (h.guards _ _)).toOrderly

/-- So order is kept throughout. -/
theorem play (h : e.Orderly lifetime) {turns : List Turn} (htimely : e.Timely turns) :
    (e.play turns).Orderly lifetime :=
  h.of_keeps fun _ => Keeps.play htimely

end Orderly

/-! ## Notifications that stay the latest -/

namespace Notice

/-- A notification has an ID of its own, and no older message is repeated under it when it has
gone out. -/
structure HasOwnId (n : Notice) : Prop where
  numbered : n.message.isNumbered = true
  alone : ∀ m, n.node.outgoing.openMessage? ⟨n.key.peer, n.message.id⟩ = some m → m = n.message

/-- A notification was put into the outbox, and is the latest message under its ID as long as the
ID is reserved for it. -/
structure Lasting (lifetime : Duration) (n : Notice) (e : Engine) : Prop where
  posted : ∃ before, n.node.outbox = before ++ [(n.time, n.key.peer, n.message)]
  owned : n.message.type = .confirmable → n.HasOwnId
  guarded : n.HasOwnId →
    Guards lifetime n.key.peer n.message (n.time + lifetime) n.node.outbox e

/-- A notice lasts as long as its message is the latest. -/
theorem Lasting.of_keeps {n : Notice} (h : n.Lasting lifetime e) (hkeeps : Keeps lifetime
    n.key.peer n.message (n.time + lifetime) n.node.outbox e e') : n.Lasting lifetime e' :=
  ⟨h.posted, h.owned, fun hown => hkeeps.2 (h.guarded hown)⟩

/-- What has just gone out is the latest. -/
theorem lasting_of_posts (horderly : e.Orderly lifetime) (horderly' : e'.Orderly lifetime)
    (hposts : Posts peer m e e') (key : ConversationKey) (hpeer : key.peer = peer) :
    (⟨key, m, e'⟩ : Notice).Lasting lifetime e' := by
  subst hpeer
  have htime : Notice.time ⟨key, m, e'⟩ = e.now := hposts.now
  refine ⟨⟨e.outbox, by rw [htime]; exact hposts.outbox⟩, fun htype => ⟨?_, fun m' hm' => ?_⟩,
    fun hown => { toOrderly := horderly', reserved := fun _ => ?_, alone := fun _ => hown.alone,
                  since := ⟨[], (List.append_nil _).symm, fun _ _ hm' => by cases hm'⟩ }⟩
  · exact decide_eq_true (.inl htype)
  · exact Option.some.inj (hm'.symm.trans (hposts.opened htype))
  · rw [htime, ← horderly.lifetime]
    exact hposts.reserves hown.numbered

/-- **The latest message under its ID, at last, is the notification or one that was sent when the
ID was not reserved for it any more.** -/
theorem Lasting.latestUnder {n : Notice} (h : n.Lasting lifetime e) (hown : n.HasOwnId) :
    ∃ t m, e.latestUnder? ⟨n.key.peer, n.message.id⟩ = some (t, m) ∧
      (m = n.message ∨ n.time + lifetime ≤ t) := by
  obtain ⟨before, hposted⟩ := h.posted
  obtain ⟨later, hlater, hothers⟩ := (h.guarded hown).since
  let under (x : Instant × Endpoint × Message) : Bool :=
    x.2.1 = n.key.peer ∧ x.2.2.isNumbered ∧ x.2.2.id = n.message.id
  have hself : under (n.time, n.key.peer, n.message) = true := by simp [under, hown.numbered]
  have hfilter : e.outbox.filter under =
      before.filter under ++ [(n.time, n.key.peer, n.message)] ++ later.filter under := by
    rw [hlater, hposted, List.filter_append, List.filter_append, List.filter_cons_of_pos hself,
      List.filter_nil]
  have hlatest : e.latestUnder? ⟨n.key.peer, n.message.id⟩ =
      (e.outbox.filter under).getLast?.map fun x => (x.1, x.2.2) := rfl
  rw [hlatest, hfilter]
  rcases List.eq_nil_or_concat (later.filter under) with hnil | ⟨rest, ⟨t, p, m⟩, hlast⟩
  · refine ⟨n.time, n.message, ?_, .inl rfl⟩
    rw [hnil, List.append_nil, List.getLast?_concat, Option.map_some]
  · have hmem : (t, p, m) ∈ later.filter under := by simp [hlast]
    obtain ⟨hmem, hunder⟩ := List.mem_filter.1 hmem
    obtain ⟨rfl, hnumbered, hid⟩ : p = n.key.peer ∧ m.isNumbered = true ∧ m.id = n.message.id := by
      simpa [under] using hunder
    refine ⟨t, m, ?_, hothers t m hmem hnumbered hid⟩
    rw [hlast, List.concat_eq_append, ← List.append_assoc, List.getLast?_concat, Option.map_some]

end Notice

/-- Notifications last when they were sent one after another. -/
theorem lasting_noticesOf (notifications : List Notification) :
    ∀ {e : Engine}, e.Orderly lifetime → Subscriptions.Full notifications →
      ∀ n ∈ e.noticesOf notifications, n.Lasting lifetime (e.sendNotifications notifications) := by
  induction notifications with
  | nil => exact fun _ _ n hn => by cases hn
  | cons first rest ih =>
    intro e horderly hfull
    have hsent := horderly.of_keeps fun m =>
      Keeps.frame.sendInBlocks e first.peer (m := first.message) trivial none
    have hrest : Subscriptions.Full rest := fun n hn => hfull n (List.mem_cons_of_mem _ hn)
    unfold Engine.sendNotifications noticesOf
    simp only
    cases hresult : (e.sendInBlocks first.peer first.message none).1 with
    | error failure => exact ih hsent hrest
    | ok id =>
      obtain ⟨m, rfl, hposts⟩ := posts_sendInBlocks hresult
      simp only [hposts.sent, List.getLast?_concat, Option.map_some, Option.toList_some]
      intro n hn
      rcases List.mem_append.1 hn with hn | hn
      · obtain rfl := List.mem_singleton.1 hn
        have hlasting := Notice.lasting_of_posts horderly hsent hposts
          ⟨first.peer, first.message.token⟩ rfl
        refine hlasting.of_keeps ?_
        exact Keeps.frame.trans (.silent (.books _ _ _ _ _ _))
          (Keeps.frame.sendNotifications rest (fun _ _ => trivial) _)
      · exact ih (hsent.serving _ _) hrest n hn

/-- All notices of an event last when it is over. -/
theorem lasting_notices (horderly : e.Orderly lifetime) (event : Event) :
    ∀ n ∈ e.notices event, n.Lasting lifetime (e.step event) := by
  cases event with
  | announce id change =>
    exact lasting_noticesOf _ (horderly.serving e.service (e.subscriptions.announce id change).2)
      (Subscriptions.full_announce e.subscriptions id change)
  | _ => exact fun n hn => by cases hn

/-- **Every notification is the latest message under its ID as long as that is reserved**, in
every history. -/
theorem lasting_play (horderly : e.Orderly lifetime) {turns : List Turn}
    (htimely : e.Timely turns) :
    ∀ n ∈ e.gather notices turns, n.Lasting lifetime (e.play turns) := by
  intro n hn
  obtain ⟨before, turn, after, rfl, hturn⟩ := mem_gather hn
  obtain ⟨hbefore, -, hafter⟩ := htimely.append
  have hreached := horderly.play hbefore
  have hlasting : n.Lasting lifetime ((e.play before).after turn) :=
    lasting_notices (e := (e.play before).under turn.service)
      (hreached.serving _ _) turn.event n hturn
  rw [play_append]
  exact hlasting.of_keeps (.play hafter)

end Engine

end Coap
