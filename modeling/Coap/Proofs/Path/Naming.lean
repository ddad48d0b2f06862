/-
# What a path names

The path of a message is read in three places: by the message itself, by the router, which compares
lists of segments, and by the subscriptions, which compare normal forms.  They agree, however the
path was spelled and whatever the values of the option are: a path that is set is read as its
segments, also behind a datagram, and a request names what is attached at a path exactly if the
router finds this path for it and leaves nothing over.
-/
import Coap.Proofs.Datagram.Normal
import Coap.Proofs.Message.Refused
import Coap.Proofs.Observe.Watching
import Coap.Proofs.Path.Segments
import Coap.Proofs.Service.Dispatch
import Mathlib.Data.List.TakeWhile

namespace Coap

/-! ## Messages -/

/-- The messages a node can have in its hands: it has built or received them, and called whatever
changes them. -/
inductive Obtained : Message → Prop
  | built {m : Message} (h : Built m) : Obtained m
  | received {b : Bytes} {m : Message} (h : Datagram.decode b = .ok m) : Obtained m
  | change {m : Message} (h : Obtained m) (c : Change) : Obtained (c.run m).message

theorem Obtained.wellFormed {m : Message} (h : Obtained m) : m.WellFormed := by
  induction h with
  | built h => exact h.wellFormed
  | received h => exact (Datagram.decode_eq_ok_iff_carries.mp h).wellFormed
  | change _ c ih => exact ih.change c

/-- Everyone who reads the path of a message reads these segments. -/
structure Message.ReadsAs (m : Message) (names : List String) : Prop where
  uriPath : m.uriPath = Path.join names
  key : Path.segments m.uriPath = names
  normalized : Path.normalize m.uriPath = Path.join names

namespace Message

variable {m : Message} {path : String} {names : List String}

theorem readsAs_of_values (hnames : ∀ s ∈ names, Path.IsSegment s)
    (hvalues : m.options.values .uriPath = names.map .text) : m.ReadsAs names := by
  have hpath : m.uriPath = Path.join names := by
    rw [uriPath, hvalues, List.filterMap_map]
    congr 1
    exact List.filterMap_some
  have hkey : Path.segments m.uriPath = names := by
    rw [hpath, Path.segments_join hnames]
  exact ⟨hpath, hkey, congrArg Path.join hkey⟩

theorem fault?_addOptions_segments (hfull : ¬ m.isEmpty)
    (hfits : ∀ s ∈ names, s.utf8ByteSize ≤ 255) :
    (m.addOptions (names.map fun s => (.uriPath, .text s))).fault? = none := by
  induction names generalizing m with
  | nil => rfl
  | cons s rest ih =>
    rw [List.map_cons, addOptions, addOption_segment hfull (hfits s List.mem_cons_self),
      Edit.andThen_done]
    exact ih hfull fun s hs => hfits s (List.mem_cons_of_mem _ hs)

/-- A path whose segments fit is set. -/
theorem setUriPath_of_fits (hfull : ¬ m.isEmpty)
    (hfits : ∀ s ∈ Path.segments path, s.utf8ByteSize ≤ 255) :
    (m.setUriPath path).fault? = none ∧
      ∃ options, (m.setUriPath path).message = { m with options } ∧
        options.values .uriPath = (Path.segments path).map .text := by
  refine ⟨fault?_addOptions_segments (m := m.removeOption .uriPath) hfull hfits, ?_⟩
  obtain ⟨options, hmessage, hvalues⟩ := m.message_setUriPath path
  refine ⟨options, hmessage, ?_⟩
  have hwritten : m.writtenSegments path = Path.segments path := by
    rw [writtenSegments, if_neg hfull, List.takeWhile_eq_self_iff]
    simpa using hfits
  rw [hvalues, if_pos rfl, hwritten]

end Message

/-! ## Routers -/

/-- The router finds the very path for a message, and leaves nothing over. -/
def Router.ResolvesTo {η : Type} (r : Router η) (m : Message) (path : String) : Prop :=
  let key := Path.segments m.uriPath
  ∃ route n, r.lookup key key.length = some (route, n) ∧ key.take n = Path.segments path ∧
    key.drop n = []

/-- The router resolves a message to a path exactly if something was registered there and the
message names this path. -/
theorem Router.Records.resolvesTo_iff {η : Type} {r : Router η} {rs : List (Registration η)}
    (h : r.Records rs) {m : Message} {path : String} :
    r.ResolvesTo m path ↔ RegisteredAt rs (Path.segments path) ∧
      Path.normalize m.uriPath = Path.normalize path := by
  rw [Path.normalize_eq_iff]
  constructor
  · rintro ⟨route, n, hlookup, hkey, hrest⟩
    obtain ⟨-, hlongest, -⟩ := h.lookup_eq_some_iff.mp hlookup
    have hwhole := hlongest.split
    rw [hrest, List.append_nil, hkey] at hwhole
    exact ⟨hkey ▸ hlongest.registered, hwhole.symm⟩
  · rintro ⟨hregistered, hsame⟩
    rw [← hsame] at hregistered
    have hlongest : LongestAt rs (Path.segments m.uriPath) (Path.segments m.uriPath) [] :=
      ⟨List.append_nil _, hregistered, fun q hq _ => hq.length_le⟩
    refine ⟨_, _, h.lookup_of_longestAt hlongest, ?_, List.drop_length⟩
    rw [List.take_length, hsame]

/-! ## Subscriptions -/

namespace Subscriptions

variable {s : Subscriptions} {path : String}

theorem SameWiring.isObservable {s s' : Subscriptions} (h : s.SameWiring s') (path : String) :
    s'.isObservable path = s.isObservable path := by
  rw [Subscriptions.isObservable, h.attached, Subscriptions.isObservable]

/-- What is attached stays or is detached when a watcher hears something. -/
theorem isObservable_of_hear {w : Watcher} (events : List ResourceEvent) :
    ∀ s : Subscriptions, (hear w events s).2.isObservable path → s.isObservable path := by
  induction events with
  | nil => exact fun _ h => h
  | cons event rest ih =>
    intro s h
    cases event with
    | changed type? =>
      have hrest := ih (s.change w.path type?).2 h
      rwa [(SameWiring.change s w.path type?).isObservable] at hrest
    | removed =>
      have hleft : (s.detach w.path w.listener).2.attached.contains (Path.normalize path) := h
      rw [(left_detach s w.path w.listener).1, Table.contains, Table.get?_erase] at hleft
      split at hleft
      · cases hleft
      · exact hleft

theorem isObservable_of_hearAll (ws : List Watcher) (s : Subscriptions)
    (h : (hearAll ws s).2.isObservable path) : s.isObservable path := by
  induction ws generalizing s with
  | nil => exact h
  | cons w rest ih =>
    unfold hearAll at h
    exact isObservable_of_hear _ (s.drain w) (ih _ h)

/-- A path comes to be observable only by being attached. -/
theorem isObservable_step {event : Event} (h : (s.step event).isObservable path) :
    s.isObservable path ∨
      ∃ p id, event = .attach p id ∧ Path.normalize p = Path.normalize path := by
  cases event with
  | add r => exact .inl h
  | attach p id =>
    rw [step, attach] at h
    split at h
    · exact .inl h
    · rw [isObservable, Table.contains, Table.get?_insert] at h
      split at h
      · next hp => exact .inr ⟨p, id, rfl, hp⟩
      · exact .inl h
  | receive peer m =>
    rw [step, (SameWiring.receive s peer m).isObservable] at h
    exact .inl h
  | send peer m request? =>
    rw [step, (SameWiring.send s peer m request?).isObservable] at h
    exact .inl h
  | settle event =>
    rw [step, (SameWiring.settle s event).isObservable] at h
    exact .inl h
  | recordId key id => exact .inl h
  | modify id f => exact .inl h
  | announce id event => exact .inl (isObservable_of_hearAll _ (s.tell id event) h)
  | hear w event => exact .inl (isObservable_of_hear [event] s h)

/-- What is observable after a history was so before, or was attached since. -/
theorem isObservable_run (events : List Event) (h : (s.run events).isObservable path) :
    s.isObservable path ∨
      ∃ p id, .attach p id ∈ events ∧ Path.normalize p = Path.normalize path := by
  induction events generalizing s with
  | nil => exact .inl h
  | cons event rest ih =>
    rcases ih h with hstep | ⟨p, id, hmem, hp⟩
    · rcases isObservable_step hstep with hs | ⟨p, id, rfl, hp⟩
      · exact .inl hs
      · exact .inr ⟨p, id, List.mem_cons_self, hp⟩
    · exact .inr ⟨p, id, List.mem_cons_of_mem _ hmem, hp⟩

end Subscriptions

/-! ## All together -/

/-- **All layers read a path the same way.**  If the parts between the slashes of a path take at
most 255 bytes each, the path of a message that is not empty can be set to it, and everyone reads
the parts that are not empty as its segments, also when the message has been sent and received.
Two paths have the same normal form exactly if they have the same segments.  So whatever was
registered with a router and whatever has happened since, if only registered paths were attached,
then a request names an observable path exactly if the router resolves it to this path and leaves
nothing over. -/
theorem paths_read_alike :
    (∀ (m : Message) (path : String), ¬ m.isEmpty → ∃ parts, Path.Splits path parts ∧
      ((∀ s ∈ parts, s.utf8ByteSize ≤ 255) →
        let names := parts.filter (!·.isEmpty)
        let e := m.setUriPath path
        e.fault? = none ∧ e.message.ReadsAs names ∧
          (Obtained m → ∃ received, Datagram.decode (Datagram.encode e.message) = .ok received ∧
            received.ReadsAs names))) ∧
    (∀ s t, Path.normalize s = Path.normalize t ↔ Path.segments s = Path.segments t) ∧
    ∀ (η : Type) (rs : List (Registration η)) (firstNumbers : Draws SequenceNumber)
      (events : List Subscriptions.Event),
      (∀ p id, .attach p id ∈ events → RegisteredAt rs (Path.segments p)) →
      ∀ (m : Message) (path : String),
        (Subscriptions.run { firstNumbers } events).isObservable path →
          (Path.normalize m.uriPath = Path.normalize path ↔
            ((Router.empty : Router η).registerAll rs).ResolvesTo m path) := by
  refine ⟨fun m path hfull => ⟨_, Path.splits path, fun hfits => ?_⟩,
    fun s t => Path.normalize_eq_iff, ?_⟩
  · intro names e
    have hnames : Path.segments path = names := (Path.splits path).segments_eq
    have hsegments : ∀ s ∈ Path.segments path, s.utf8ByteSize ≤ 255 := fun s hs =>
      hfits s (List.mem_of_mem_filter (hnames ▸ hs))
    obtain ⟨hnone, options, hmessage, hvalues⟩ := Message.setUriPath_of_fits hfull hsegments
    have hreads : e.message.ReadsAs names := by
      refine Message.readsAs_of_values (fun s hs => Path.isSegment_of_mem (hnames ▸ hs)) ?_
      rw [hmessage, hvalues, hnames]
    refine ⟨hnone, hreads, fun hm => ⟨e.message, ?_, hreads⟩⟩
    have hobtained : Obtained e.message := hm.change (.setUriPath path)
    refine Datagram.decode_eq_ok_iff_carries.mpr
      (Datagram.carries_encode hobtained.wellFormed fun hplace => hfull ?_)
    rw [hmessage] at hplace
    exact hplace.2
  · intro η rs firstNumbers events hattached m path hobservable
    rw [(Router.records_registerAll rs).resolvesTo_iff]
    refine (and_iff_right ?_).symm
    rcases Subscriptions.isObservable_run events hobservable with hnone | ⟨p, id, hmem, hp⟩
    · cases hnone
    · rw [← Path.normalize_eq_iff.mp hp]
      exact hattached p id hmem

/-- A path with doubled slashes is read as its two segments when it has been set and sent.  And a
request whose option values are empty or hold slashes themselves names what was attached at `a/b//c`
and registered at `/a/b/c/`. -/
theorem paths_read_alike_of_doubled_slashes :
    let put := Message.request .confirmable .put
    let e := put.setUriPath "//sensors//é/"
    let get : Message := {
      type := .confirmable, code := .request .get, id := 7
      options := ⟨[⟨.uriPath, .text "a/b"⟩, ⟨.uriPath, .text ""⟩, ⟨.uriPath, .text "c"⟩],
        by decide⟩ }
    let rs : List (Registration String) := [.on "a" .put "switch", .observe "/a/b/c/" "light"]
    (¬ put.isEmpty ∧ e.fault? = none ∧ e.message.ReadsAs ["sensors", "é"] ∧
      ∃ received, Datagram.decode (Datagram.encode e.message) = .ok received ∧
        received.ReadsAs ["sensors", "é"]) ∧
    get.uriPath = "a/b//c" ∧ (Router.empty.registerAll rs).ResolvesTo get "/a/b/c" := by
  intro put e get rs
  obtain ⟨hset, hsame, hnamed⟩ := paths_read_alike
  refine ⟨⟨by decide, ?_⟩, by decide +kernel, ?_⟩
  · obtain ⟨parts, hsplits, hreads⟩ := hset put "//sensors//é/" (by decide)
    obtain rfl : parts = ["", "", "sensors", "", "é", ""] := by
      rw [hsplits.eq]
      decide +kernel
    obtain ⟨hnone, hhere, hthere⟩ := hreads (by decide +kernel)
    exact ⟨hnone, hhere, hthere (.built (.request ..))⟩
  · let events : List Subscriptions.Event :=
      [.add { confirmable := false, state := fun _ => .ok {} }, .attach "a/b//c" 0]
    have hattached (p : String) (id : ResourceId) (h : .attach p id ∈ events) :
        RegisteredAt rs (Path.segments p) := by
      obtain ⟨rfl, rfl⟩ : p = "a/b//c" ∧ id = 0 := by simpa [events] using h
      exact ⟨.observe "/a/b/c/" "light", by simp [rs], by decide +kernel⟩
    have hsegments : Path.segments get.uriPath = Path.segments "/a/b/c" := by decide +kernel
    refine (hnamed String rs (.constant (.ofNat 0)) events hattached get "/a/b/c" ?_).mp
      ((hsame ..).mpr hsegments)
    decide +kernel

end Coap
