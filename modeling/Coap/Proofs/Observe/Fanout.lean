/-
# A change is told to everyone, once

The observers of a path are a set: they are told of a change one after the other, in whatever
order the set is gone through, and the tables that the set was read from change on the way.  The
order does not matter.  Every observer of the path gets what it would get alone, nobody else gets
anything, and the state is rendered once for each format that is asked for.
-/
import Coap.Proofs.Observe.Shown

namespace Coap

/-- The resource after it has been rendered some more times. -/
def Resource.rendered (n : Nat) (r : Resource) : Resource := { r with renders := r.renders + n }

theorem Resource.rendered_comp (n k : Nat) : rendered k ∘ rendered n = rendered (k + n) := by
  funext r
  show ({ r with renders := r.renders + n + k } : Resource) = rendered (k + n) r
  rw [rendered, Nat.add_assoc, Nat.add_comm n k]

namespace Subscriptions

variable {s s' : Subscriptions} {key first : ConversationKey} {x : Subscription} {path : String}
  {id : ResourceId} {r : Resource} {type : MessageType} {keys keys' : List ConversationKey}
  {seen seen' : Renderings}

/-! ## The turn of one observer -/

theorem unindex_eq (s : Subscriptions) (path : String) (key : ConversationKey) :
    ∃ byPath, s.unindex path key = { s with byPath } ∧
      ∀ q, q ≠ path → byPath.get? q = s.byPath.get? q := by
  unfold unindex
  split
  · exact ⟨s.byPath, rfl, fun q _ => rfl⟩
  · split
    · exact ⟨_, rfl, fun q hq => by rw [Table.get?_erase, if_neg hq.symm]⟩
    · exact ⟨_, rfl, fun q hq => by rw [Table.get?_insert, if_neg hq.symm]⟩

theorem remove_eq (hx : s.entries.get? key = some x) :
    ∃ byPath, s.remove key = { s with entries := s.entries.erase key, byPath } ∧
      ∀ q, q ≠ x.path → byPath.get? q = s.byPath.get? q := by
  unfold remove
  simp only [hx]
  exact unindex_eq { s with entries := s.entries.erase key } x.path key

/-- Each rendering is counted. -/
theorem render_eq (s : Subscriptions) (id : ResourceId) (accept? : Option UInt16) :
    (s.render id accept?).2 = s.modifyResource id (Resource.rendered 1) := by
  unfold render
  split
  · next hnone =>
    have hlength : s.resources.length ≤ id := List.getElem?_eq_none_iff.mp hnone
    rw [modifyResource, List.modify_eq_self hlength]
  · next r hr =>
    have hcounted : s.resources.modify id (fun _ => (r.render accept?).2) =
        s.resources.modify id (Resource.rendered 1) := by
      refine List.ext_getElem? fun i => ?_
      rw [List.getElem?_modify, List.getElem?_modify]
      by_cases hi : id = i
      · subst hi
        rw [hr]
        rfl
      · simp [hi]
    show s.modifyResource id (fun _ => (r.render accept?).2) = _
    rw [modifyResource, hcounted, modifyResource]

/-- The formats that the state has been rendered in. -/
def formatsOf (seen : Renderings) : List (Option UInt16) := seen.map (·.1)

/-- A state that has been rendered in a format is not rendered in it again. -/
theorem renderOnce_eq (s : Subscriptions) (id : ResourceId) (accept? : Option UInt16)
    (seen : Renderings) :
    (accept? ∈ formatsOf seen ∧ (s.renderOnce id accept? seen).2 = (seen, s)) ∨
      (accept? ∉ formatsOf seen ∧ ∃ seen', formatsOf seen' = formatsOf seen ++ [accept?] ∧
        (s.renderOnce id accept? seen).2 = (seen', s.modifyResource id (Resource.rendered 1))) := by
  unfold renderOnce
  cases hfound : seen.find? (·.1 == accept?) with
  | some e =>
    have hformat : e.1 = accept? := by simpa using List.find?_some hfound
    exact .inl ⟨List.mem_map.mpr ⟨e, List.mem_of_find?_eq_some hfound, hformat⟩, rfl⟩
  | none =>
    refine .inr ⟨fun hmem => ?_, seen ++ [(accept?, (s.render id accept?).1)], ?_, ?_⟩
    · obtain ⟨e, he, hformat⟩ := List.mem_map.mp hmem
      exact List.find?_eq_none.mp hfound e he (by simpa using hformat)
    · exact List.map_append
    · rw [← render_eq]

/-- All that the turn of one observer of a path does: the entry of that observer changes or goes,
it may leave the list of the path, and the state may be rendered in the format it asks for. -/
structure Turn (id : ResourceId) (first : ConversationKey) (x : Subscription)
    (seen seen' : Renderings) (s s' : Subscriptions) : Prop where
  others : ∀ k, k ≠ first → s'.entries.get? k = s.entries.get? k
  elsewhere : ∀ q, q ≠ x.path → s'.byPath.get? q = s.byPath.get? q
  attached : s'.attached = s.attached
  watchers : s'.watchers = s.watchers
  firstNumbers : s'.firstNumbers = s.firstNumbers
  renders : (x.accept? ∈ formatsOf seen ∧ formatsOf seen' = formatsOf seen ∧
      s'.resources = s.resources) ∨
    (x.accept? ∉ formatsOf seen ∧ formatsOf seen' = formatsOf seen ++ [x.accept?] ∧
      s'.resources = s.resources.modify id (Resource.rendered 1))

/-- The same is left if the observer then loses its subscription. -/
theorem Turn.remove (h : Turn id first x seen seen' s s') {y : Subscription}
    (hy : s'.entries.get? first = some y) (hpath : y.path = x.path) :
    Turn id first x seen seen' s (s'.remove first) := by
  obtain ⟨byPath, hremove, hindex⟩ := remove_eq hy
  rw [hremove]
  refine ⟨fun k hk => ?_, fun q hq => ?_, h.attached, h.watchers, h.firstNumbers, h.renders⟩
  · rw [← h.others k hk]
    exact (Table.get?_erase ..).trans (if_neg hk.symm)
  · rw [← h.elsewhere q hq]
    exact hindex q (hpath ▸ hq)

/-- An observer has its turn, and then the rest. -/
theorem exists_turn (id : ResourceId) (type : MessageType) (rest : List ConversationKey)
    (seen : Renderings) (hx : s.entries.get? first = some x) :
    ∃ notes seen' s', Turn id first x seen seen' s s' ∧
      notifyEach id type (first :: rest) seen s =
        (notes ++ (notifyEach id type rest seen' s').1, (notifyEach id type rest seen' s').2) := by
  let numbered : Subscriptions :=
    { s with entries := s.entries.insert first { x with number := x.number.next } }
  let rendered := numbered.renderOnce id x.accept? seen
  have hothers (k : ConversationKey) (hk : k ≠ first) :
      numbered.entries.get? k = s.entries.get? k :=
    (Table.get?_insert ..).trans (if_neg hk.symm)
  have hturn : Turn id first x seen rendered.2.1 s rendered.2.2 := by
    rcases numbered.renderOnce_eq id x.accept? seen with ⟨hmem, heq⟩ | ⟨hnot, _, hformats, heq⟩
    · rw [show rendered.2 = _ from heq]
      exact ⟨hothers, fun _ _ => rfl, rfl, rfl, rfl, .inl ⟨hmem, rfl, rfl⟩⟩
    · rw [show rendered.2 = _ from heq]
      exact ⟨hothers, fun _ _ => rfl, rfl, rfl, rfl, .inr ⟨hnot, hformats, rfl⟩⟩
  have hentry : rendered.2.2.entries.get? first = some { x with number := x.number.next } := by
    rw [entries_renderOnce]
    exact Table.get?_insert_self ..
  rw [notifyEach_cons rest seen hx]
  cases (numbered.renderOnce id x.accept? seen).1 with
  | ok r => exact ⟨_, _, _, hturn, rfl⟩
  | error f => exact ⟨_, _, _, hturn.remove hentry rfl, rfl⟩

/-! ## A pass over many observers -/

/-- The entries of those who are still to come are as they were. -/
theorem Turn.rest (h : Turn id first x seen seen' s s') {rest : List ConversationKey}
    (hnodup : (first :: rest).Nodup) : ∀ k ∈ rest, s'.entries.get? k = s.entries.get? k := by
  intro k hk
  refine h.others k ?_
  rintro rfl
  exact (List.nodup_cons.mp hnodup).1 hk

/-- What a pass over observers of one path leaves as it was. -/
structure Elsewhere (path : String) (s s' : Subscriptions) : Prop where
  index : ∀ q, q ≠ path → s'.byPath.get? q = s.byPath.get? q
  attached : s'.attached = s.attached
  watchers : s'.watchers = s.watchers
  firstNumbers : s'.firstNumbers = s.firstNumbers

theorem elsewhere_notifyEach (id : ResourceId) (type : MessageType) (keys : List ConversationKey) :
    ∀ {seen : Renderings} {s : Subscriptions}, keys.Nodup →
      (∀ key ∈ keys, ∀ x, s.entries.get? key = some x → x.path = path) →
      Elsewhere path s (notifyEach id type keys seen s).2 := by
  induction keys with
  | nil => exact fun _ _ => ⟨fun _ _ => rfl, rfl, rfl, rfl⟩
  | cons first rest ih =>
    intro seen s hnodup hpath
    have hrest := (List.nodup_cons.mp hnodup).2
    cases hx : s.entries.get? first with
    | none =>
      rw [notifyEach]
      simp only [hx]
      exact ih hrest fun key hkey => hpath key (List.mem_cons_of_mem _ hkey)
    | some x =>
      obtain ⟨notes, seen', s', hturn, heq⟩ := exists_turn id type rest seen hx
      have hx' : x.path = path := hpath first List.mem_cons_self x hx
      have hothers : Elsewhere path s' (notifyEach id type rest seen' s').2 := by
        refine ih hrest fun key hkey y hy => ?_
        rw [hturn.rest hnodup key hkey] at hy
        exact hpath key (List.mem_cons_of_mem _ hkey) y hy
      rw [heq]
      refine ⟨fun q hq => ?_, hothers.attached.trans hturn.attached,
        hothers.watchers.trans hturn.watchers, hothers.firstNumbers.trans hturn.firstNumbers⟩
      rw [hothers.index q hq, hturn.elsewhere q (hx' ▸ hq)]

/-- An observer asks for the state in a format. -/
def AsksFor (s : Subscriptions) (format? : Option UInt16) (key : ConversationKey) : Prop :=
  ∃ x, s.entries.get? key = some x ∧ x.accept? = format?

/-- **The state is rendered once for each format** that some observer asks for, unless it has been
rendered in it before. -/
theorem renders_notifyEach (id : ResourceId) (type : MessageType) (keys : List ConversationKey) :
    ∀ (seen : Renderings) (s : Subscriptions), keys.Nodup →
      ∃ formats : List (Option UInt16), formats.Nodup ∧
        (∀ format?, format? ∈ formats ↔
          format? ∉ formatsOf seen ∧ ∃ key ∈ keys, s.AsksFor format? key) ∧
        (notifyEach id type keys seen s).2.resources =
          s.resources.modify id (Resource.rendered formats.length) := by
  induction keys with
  | nil =>
    intro seen s _
    refine ⟨[], .nil, by simp, ?_⟩
    exact (List.modify_id id s.resources).symm
  | cons first rest ih =>
    intro seen s hnodup
    have hrest := (List.nodup_cons.mp hnodup).2
    cases hx : s.entries.get? first with
    | none =>
      obtain ⟨formats, hformats, hmem, hrendered⟩ := ih seen s hrest
      refine ⟨formats, hformats, fun format? => ?_, ?_⟩
      · rw [hmem]
        simp [AsksFor, hx]
      · rw [notifyEach]
        simp only [hx]
        exact hrendered
    | some x =>
      obtain ⟨notes, seen', s', hturn, heq⟩ := exists_turn id type rest seen hx
      obtain ⟨formats, hformats, hmem, hrendered⟩ := ih seen' s' hrest
      have hasks (format? : Option UInt16) :
          (∃ key ∈ rest, s'.AsksFor format? key) ↔ ∃ key ∈ rest, s.AsksFor format? key := by
        refine exists_congr fun key => and_congr_right fun hkey => ?_
        rw [AsksFor, AsksFor, hturn.rest hnodup key hkey]
      have hfirst (format? : Option UInt16) :
          (∃ key ∈ first :: rest, s.AsksFor format? key) ↔
            x.accept? = format? ∨ ∃ key ∈ rest, s.AsksFor format? key := by
        simp [AsksFor, hx]
      rw [heq]
      rcases hturn.renders with ⟨hseen, hformats', hsame⟩ | ⟨hnew, hformats', hcounted⟩
      · -- the state is at hand in the format that is asked for
        refine ⟨formats, hformats, fun format? => ?_, by rw [hrendered, hsame]⟩
        rw [hmem, hformats', hasks, hfirst]
        refine and_congr_right fun hnot => (or_iff_right ?_).symm
        rintro rfl
        exact hnot hseen
      · -- it is rendered, and will be at hand for the others
        have hnot : x.accept? ∉ formats := fun h => (hmem _).mp h |>.1 (by simp [hformats'])
        refine ⟨x.accept? :: formats, List.nodup_cons.mpr ⟨hnot, hformats⟩, fun format? => ?_, ?_⟩
        · rw [List.mem_cons, hmem, hformats', hasks, hfirst]
          by_cases h : format? = x.accept?
          · subst h
            simp [hnew]
          · simp [h, Ne.symm h]
        · rw [hrendered, hcounted, List.modify_modify_eq, Resource.rendered_comp]
          rfl

/-! ## Any order -/

/-- Notifications are the same up to their order if they are the same for each observer. -/
theorem perm_of_filter_isFor {l l' : List Notification}
    (h : ∀ key, l.filter (Notification.isFor key) = l'.filter (Notification.isFor key)) :
    l.Perm l' := by
  rw [List.perm_iff_count]
  intro n
  have hfor : Notification.isFor ⟨n.peer, n.message.token⟩ n = true := by
    simp [Notification.isFor]
  rw [← List.count_filter hfor, h, List.count_filter hfor]

theorem seenFrom_notifyEach_of_none (hnone : s.entries.get? key = none) :
    seenFrom key (notifyEach id type keys seen s) = (none, []) :=
  seenFrom_of_spares (spares_notifyEach id type keys seen hnone)

/-- In whatever order the observers have their turns, each of them sees the same. -/
theorem seenFrom_notifyEach_perm (s : Subscriptions) (id : ResourceId) (type : MessageType)
    (hnodup : keys.Nodup) (hperm : keys'.Perm keys) (key : ConversationKey) :
    seenFrom key (notifyEach id type keys' [] s) = seenFrom key (notifyEach id type keys [] s) := by
  cases hx : s.entries.get? key with
  | none => rw [seenFrom_notifyEach_of_none hx, seenFrom_notifyEach_of_none hx]
  | some x =>
    rw [seenFrom_notifyEach id type keys' (.nil s id) (hperm.nodup_iff.mpr hnodup) hx,
      seenFrom_notifyEach id type keys (.nil s id) hnodup hx]
    simp only [hperm.mem_iff]

/-! ## What everyone gets -/

/-- What an observer gets of a change: its subscription under the next number and one
notification of the state, unless that cannot be built; or, if there is no state in the format it
asks for, one notification that says why, and the subscription is over. -/
structure Reached (r : Resource) (type : MessageType) (key : ConversationKey) (x : Subscription)
    (left? : Option Subscription) (notes : List Notification) : Prop where
  advanced : ∀ shown, r.state x.accept? = .ok shown →
    left? = some { x with number := x.number.next }
  told : ∀ shown, r.state x.accept? = .ok shown → shown.Writable →
    ∃ m, notes = [⟨key.peer, m⟩] ∧ m.Shows type key.token x.number.next shown x.etags
  silent : ∀ shown, r.state x.accept? = .ok shown → ¬ shown.Writable → notes = []
  ended : ∀ f, r.state x.accept? = .error f →
    left? = none ∧ ∃ m, notes = [⟨key.peer, m⟩] ∧ m.Explains type key.token f

theorem reached_told (hr : s.resources[id]? = some r) (type : MessageType) (key : ConversationKey)
    (x : Subscription) :
    Reached r type key x (s.told id type key x).1 (s.told id type key x).2 := by
  have hstate : (s.render id x.accept?).1 = r.state x.accept? := by
    rw [render_fst, hr]
  unfold Subscriptions.told
  rw [hstate]
  cases hrendered : r.state x.accept? with
  | ok shown =>
    have hshown (shown' : Representation) (h : r.state x.accept? = .ok shown') : shown = shown' :=
      Except.ok.inj (hrendered.symm.trans h)
    constructor
    · intro _ _
      rfl
    · intro shown' h hw
      obtain rfl := hshown shown' h
      obtain ⟨m, hbuilt, hshows⟩ :=
        Notification.ofState_shows type key.token x.number.next x.etags hw
      exact ⟨m, congrArg (notificationsOf key.peer) hbuilt, hshows⟩
    · intro shown' h hw
      obtain rfl := hshown shown' h
      obtain ⟨fault, hfault⟩ := Option.isSome_iff_exists.mp
        (Notification.isSome_fault?_ofState type key.token x.number.next x.etags hw)
      simp only [notificationsOf, hfault]
    · intro f h
      cases hrendered.symm.trans h
  | error f =>
    have hfails (shown : Representation) : r.state x.accept? ≠ .ok shown := by
      intro h
      cases hrendered.symm.trans h
    constructor
    · exact fun shown h => absurd h (hfails shown)
    · exact fun shown h _ => absurd h (hfails shown)
    · exact fun shown h _ => absurd h (hfails shown)
    · intro f' h
      obtain rfl := Except.error.inj (hrendered.symm.trans h)
      obtain ⟨m, hbuilt, hexplains⟩ := Notification.ofFailure_explains type key.token f
      exact ⟨rfl, m, congrArg (notificationsOf key.peer) hbuilt, hexplains⟩

/-- **Everyone is told once, in any order.**  A resource is attached at a path, and its state
changes.  In whatever order the observers of the path have their turns, each of them gets what it
would get alone, and nobody else gets anything; the state is rendered once for each format that an
observer asks for; the tables still agree, and hold what they held of all other paths; and another
order leaves the same subscriptions and sends the same notifications. -/
theorem told_once_in_any_order (h : s.Consistent) (hid : s.attached.get? path = some id)
    (hr : s.resources[id]? = some r) (type? : Option MessageType) :
    let type := type?.getD r.notificationType
    s.change path type? = notifyEach id type (s.keysAt path) [] s ∧
    ∀ keys : List ConversationKey, keys.Perm (s.keysAt path) →
      let sent := (notifyEach id type keys [] s).1
      let after := (notifyEach id type keys [] s).2
      (∀ key x, s.entries.get? key = some x → x.path = path →
        Reached r type key x (after.entries.get? key)
          (sent.filter (Notification.isFor key))) ∧
      (∀ key, (∀ x, s.entries.get? key = some x → x.path ≠ path) →
        after.entries.get? key = s.entries.get? key ∧
          sent.filter (Notification.isFor key) = []) ∧
      (∃ formats : List (Option UInt16), formats.Nodup ∧
        (∀ format?, format? ∈ formats ↔
          ∃ key x, s.entries.get? key = some x ∧ x.path = path ∧ x.accept? = format?) ∧
        after.resources = s.resources.modify id (Resource.rendered formats.length)) ∧
      after.Consistent ∧ Elsewhere path s after ∧
      (∀ key, after.entries.get? key = (s.change path type?).2.entries.get? key) ∧
      sent.Perm (s.change path type?).1 := by
  intro type
  have hchange : s.change path type? = notifyEach id type (s.keysAt path) [] s := by
    unfold change
    simp only [hid, hr]
    rfl
  refine ⟨hchange, ?_⟩
  intro keys hperm sent after
  have hnodup : keys.Nodup := hperm.nodup_iff.mpr (h.nodup path)
  have hlisted (key : ConversationKey) :
      key ∈ keys ↔ ∃ x, s.entries.get? key = some x ∧ x.path = path := by
    rw [hperm.mem_iff, h.listed, path?_eq_some_iff]
  have hpath (key : ConversationKey) (hkey : key ∈ keys) (x : Subscription)
      (hx : s.entries.get? key = some x) : x.path = path := by
    obtain ⟨y, hy, hpath⟩ := (hlisted key).mp hkey
    rw [Option.some.inj (hx.symm.trans hy), hpath]
  have hsame := seenFrom_notifyEach_perm s id type (h.nodup path) hperm
  refine ⟨fun key x hx hown => ?_, fun key hother => ?_, ?_, h.notifyEach id type keys [],
    elsewhere_notifyEach id type keys hnodup hpath, fun key => ?_, ?_⟩
  · have hseen := seenFrom_notifyEach id type keys (.nil s id) hnodup hx
    rw [if_pos ((hlisted key).mpr ⟨x, hx, hown⟩)] at hseen
    show Reached r type key x (seenFrom key (notifyEach id type keys [] s)).1
      (seenFrom key (notifyEach id type keys [] s)).2
    rw [hseen]
    exact reached_told hr type key x
  · cases hx : s.entries.get? key with
    | none => exact Prod.mk.inj (seenFrom_notifyEach_of_none hx)
    | some x =>
      have hseen := seenFrom_notifyEach id type keys (.nil s id) hnodup hx
      rw [if_neg fun hkey => hother x hx (hpath key hkey x hx)] at hseen
      exact Prod.mk.inj hseen
  · obtain ⟨formats, hformats, hmem, hrendered⟩ :=
      renders_notifyEach id type keys [] s hnodup
    refine ⟨formats, hformats, fun format? => ?_, hrendered⟩
    rw [hmem]
    constructor
    · rintro ⟨-, key, hkey, x, hx, hformat⟩
      exact ⟨key, x, hx, hpath key hkey x hx, hformat⟩
    · rintro ⟨key, x, hx, hown, hformat⟩
      exact ⟨List.not_mem_nil, key, (hlisted key).mpr ⟨x, hx, hown⟩, x, hx, hformat⟩
  · rw [hchange]
    exact (Prod.mk.inj (hsame key)).1
  · rw [hchange]
    exact perm_of_filter_isFor fun key => (Prod.mk.inj (hsame key)).2

/-- Three observers have their turns in the reverse order.  The first of them asks for a format that
there is none of, and is no observer any more; the last one holds the state already. -/
theorem told_once_in_any_order_three :
    let shown : Representation := { payload := [52], etag? := some [7], maxAge? := some 5 }
    let r : Resource :=
      { confirmable := false
        state := fun accept? => if accept? = none then .ok shown else .error .notAcceptable }
    let empty : Subscriptions :=
      { firstNumbers := .constant (.ofNat 7), resources := [r]
        attached := Table.empty.insert "temp" 0 }
    let key (n : Nat) : ConversationKey := ⟨⟨n⟩, ⟨[1], by decide⟩⟩
    let asking (options : Options) : Message :=
      { type := .confirmable, code := .request .get, id := 1, options }
    let holding := asking (Options.empty.add .etag (.octets [7]))
    let picky := asking (Options.empty.add .accept (.unsigned 50))
    let one := (empty.register (key 1) "temp" holding).2
    let two := (one.register (key 2) "temp" (asking .empty)).2
    let s := (two.register (key 3) "temp" picky).2
    let sent := (notifyEach 0 .nonConfirmable [key 3, key 2, key 1] [] s).1
    let after := (notifyEach 0 .nonConfirmable [key 3, key 2, key 1] [] s).2
    s.keysAt "temp" = [key 1, key 2, key 3] ∧
      (∃ m, sent.filter (Notification.isFor (key 1)) = [⟨⟨1⟩, m⟩] ∧
        m.code = .response .valid ∧ m.payload = [] ∧ m.maxAge? = some 5) ∧
      (∃ m, sent.filter (Notification.isFor (key 2)) = [⟨⟨2⟩, m⟩] ∧
        m.code = .response .content ∧ m.payload = [52] ∧ m.observed? = some (.ofNat 8)) ∧
      (∃ m, sent.filter (Notification.isFor (key 3)) = [⟨⟨3⟩, m⟩] ∧
        m.code = .response .notAcceptable ∧ m.observed? = none) ∧
      after.entries.get? (key 3) = none ∧ sent.Perm (s.change "temp" none).1 := by
  intro shown r empty key asking holding picky one two s sent after
  have hempty : empty.Consistent :=
    (Consistent.empty (.constant (.ofNat 7))).congr rfl (fun _ => rfl) fun _ h => by cases h
  have hs : s.Consistent :=
    ((hempty.register (key 1) holding (by decide +kernel)).register (key 2) (asking .empty)
      (by decide +kernel)).register (key 3) picky (by decide +kernel)
  have hkeys : s.keysAt "temp" = [key 1, key 2, key 3] := by decide +kernel
  have horder : [key 3, key 2, key 1].Perm (s.keysAt "temp") := by
    rw [hkeys]
    decide
  have hid : s.attached.get? "temp" = some 0 := by decide +kernel
  have htype : (none : Option MessageType).getD r.notificationType = .nonConfirmable := rfl
  obtain ⟨-, hall⟩ := told_once_in_any_order hs hid (show s.resources[0]? = some r from rfl) none
  rw [htype] at hall
  obtain ⟨hreached, -, -, -, -, -, hperm⟩ := hall _ horder
  have hw : shown.Writable := by
    intro etag h
    obtain rfl := Option.some.inj h
    decide
  have hone : s.entries.get? (key 1) = some ⟨"temp", [[7]], none, .ofNat 7, none⟩ := by
    decide +kernel
  have htwo : s.entries.get? (key 2) = some ⟨"temp", [], none, .ofNat 7, none⟩ := by
    decide +kernel
  have hthree : s.entries.get? (key 3) = some ⟨"temp", [], some 50, .ofNat 7, none⟩ := by
    decide +kernel
  -- the first one holds the entity tag, the second one none, and the third one asks for a format
  obtain ⟨m₁, hsent₁, hshows₁⟩ := (hreached _ _ hone rfl).told shown rfl hw
  obtain ⟨m₂, hsent₂, hshows₂⟩ := (hreached _ _ htwo rfl).told shown rfl hw
  obtain ⟨hended, m₃, hsent₃, hexplains⟩ := (hreached _ _ hthree rfl).ended .notAcceptable rfl
  obtain ⟨hvalid, -, hnothing⟩ := hshows₁.known ⟨[7], by decide, rfl⟩
  obtain ⟨hcontent, -, hpayload⟩ := hshows₂.unknown (by simp)
  have hage : shown.shownMaxAge? = some 5 := by decide
  have hnumber : (SequenceNumber.ofNat 7).next = .ofNat 8 := by decide
  exact ⟨hkeys, ⟨m₁, hsent₁, hvalid, hnothing, hshows₁.maxAge.trans hage⟩,
    ⟨m₂, hsent₂, hcontent, hpayload, hshows₂.number.trans (congrArg some hnumber)⟩,
    ⟨m₃, hsent₃, hexplains.code, hexplains.noNumber⟩, hended, hperm⟩

end Subscriptions

end Coap
