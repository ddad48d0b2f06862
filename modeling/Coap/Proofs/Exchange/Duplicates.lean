/-
# Every message once

A message is let through unless the same peer sent one with the same ID that was let through
and whose lifetime has not passed since.  This is all that counts: the messages that were
consumed meanwhile, the responses that went out and the sweeps that dropped expired records
could as well not have happened (`Alike.run`).
-/
import Coap.Proofs.Exchange.Received

namespace Coap.Incoming

variable {s s' : Incoming} {now : Instant} {key : MessageKey} {history : History}

/-- **What a run remembers**: what was remembered before it, and the messages that were let
through in it, each for its lifetime. -/
theorem remembers_run (horder : (history.map (·.1) ++ [now]).Pairwise (· ≤ ·)) :
    (s.run history).Remembers now key ↔
      s.Remembers now key ∨ ∃ e ∈ s.forwarded history, s.Covers e key now := by
  -- from the front, so that the state varies and the time to come does not
  induction history generalizing s with
  | nil => simp [run, forwarded]
  | cons e rest ih =>
    obtain ⟨t, event⟩ := e
    obtain ⟨hlater, hrest⟩ := List.pairwise_cons.mp horder
    have ht : t ≤ now := hlater now (List.mem_append_right _ (List.mem_singleton_self now))
    have hcovers (e : Instant × Event) : (s.step t event).Covers e key now ↔ s.Covers e key now := by
      simp only [Covers, (sameLifetimes_step s t event).lifetime?_eq]
    rw [run, ih hrest, remembers_step ht, forwarded, or_assoc]
    simp only [hcovers]
    split
    · next h => simp [h]
    · next h => simp [h]

theorem not_remembers_start (c : Config) : ¬ (start c).Remembers now key := by
  rintro ⟨r, hr, -⟩
  cases hr

/-! ## What does not count -/

/-- The two states remember the same from now on, each message for the same time. -/
structure Alike (now : Instant) (s s' : Incoming) : Prop where
  lifetimes : SameLifetimes s s'
  remembers : ∀ {t : Instant}, now ≤ t → ∀ key, s'.Remembers t key ↔ s.Remembers t key

namespace Alike

variable {t : Instant} {event : Event}

theorem later (h : Alike t s s') (ht : t ≤ now) : Alike now s s' :=
  ⟨h.lifetimes, fun hnow => h.remembers (Nat.le_trans ht hnow)⟩

theorem forwards_eq (h : Alike t s s') : s'.forwards t event = s.forwards t event := by
  cases event with
  | receive peer m =>
    rw [Bool.eq_iff_iff, forwards_receive_iff, forwards_receive_iff, h.lifetimes.lifetime?_eq,
      h.remembers (Nat.le_refl t)]
  | _ => rfl

/-- The same event leaves the states alike. -/
theorem step (h : Alike t s s') : Alike t (s.step t event) (s'.step t event) where
  lifetimes := by
    have hs := sameLifetimes_step s t event
    have hs' := sameLifetimes_step s' t event
    exact ⟨hs'.1.trans (h.lifetimes.1.trans hs.1.symm), hs'.2.trans (h.lifetimes.2.trans hs.2.symm)⟩
  remembers := by
    intro now hnow key
    rw [remembers_step hnow, remembers_step hnow, h.forwards_eq, h.remembers hnow]
    simp only [Covers, h.lifetimes.lifetime?_eq]

/-- An event that lets nothing through does not count. -/
theorem skip (h : Alike t s s') (hevent : ¬ s.forwards t event) : Alike t (s.step t event) s' where
  lifetimes := by
    have hs := sameLifetimes_step s t event
    exact ⟨h.lifetimes.1.trans hs.1.symm, h.lifetimes.2.trans hs.2.symm⟩
  remembers := by
    intro now hnow key
    rw [remembers_step hnow, h.remembers hnow]
    simp [hevent]

/-- A run is like one in which nothing happens but the messages that were let through. -/
theorem run (h : Alike t s s') (horder : (t :: history.map (·.1) ++ [now]).Pairwise (· ≤ ·)) :
    Alike now (s.run history) (s'.run (s.forwarded history)) := by
  induction history generalizing s s' t with
  | nil =>
    have ht : t ≤ now := by simpa using horder
    exact h.later ht
  | cons e rest ih =>
    obtain ⟨u, event⟩ := e
    obtain ⟨hlater, hrest⟩ := List.pairwise_cons.mp horder
    have hu : Alike u s s' := h.later (hlater u (List.mem_cons_self ..))
    rw [Incoming.run, forwarded]
    split
    · exact ih hu.step hrest
    · next hevent => exact ih (hu.skip hevent) hrest

/-- A watched message meets with the same verdict. -/
theorem receive_eq {peer : Endpoint} {m : Message} (h : Alike now s s') (hm : Watched m) :
    (s'.receive now peer m).1 = (s.receive now peer m).1 := by
  have hsame := h.remembers (Nat.le_refl now) ⟨peer, m.id⟩
  by_cases hs : s.Remembers now ⟨peer, m.id⟩
  · rw [(receive_eq_consume_iff hm).mpr hs, (receive_eq_consume_iff hm).mpr (hsame.mpr hs)]
  · rw [(receive_eq_forward_iff hm).mpr hs,
      (receive_eq_forward_iff hm).mpr fun h' => hs (hsame.mp h')]

end Alike

/-! ## The law -/

/-- **Every message once.**  In every history in the order of time, a watched message is let
through exactly if no message of the same peer with the same ID was let through whose
lifetime has not passed, and otherwise it is consumed; and this is so exactly if it would be
so after nothing but the messages that were let through. -/
theorem receive_once (c : Config) (horder : (history.map (·.1) ++ [now]).Pairwise (· ≤ ·))
    (peer : Endpoint) {m : Message} (hm : Watched m) :
    let seen := ∃ e ∈ (start c).forwarded history, (start c).Covers e ⟨peer, m.id⟩ now
    let verdict := (((start c).run history).receive now peer m).1
    (verdict = .forward m ↔ ¬ seen) ∧ (verdict = .consume ↔ seen) ∧
      (((start c).run ((start c).forwarded history)).receive now peer m).1 = verdict := by
  intro seen verdict
  have hseen : ((start c).run history).Remembers now ⟨peer, m.id⟩ ↔ seen := by
    rw [remembers_run horder, or_iff_right (not_remembers_start c)]
  have hstart : Alike 0 (start c) (start c) := ⟨⟨rfl, rfl⟩, fun _ _ => Iff.rfl⟩
  have halike : Alike now ((start c).run history) ((start c).run ((start c).forwarded history)) :=
    hstart.run (List.pairwise_cons.mpr ⟨fun t _ => Nat.zero_le t, horder⟩)
  refine ⟨?_, ?_, halike.receive_eq hm⟩
  · rw [receive_eq_forward_iff hm, hseen]
  · rw [receive_eq_consume_iff hm, hseen]

/-- A message that asks for no acknowledgement keeps a request with the same ID out to the
last moment of its lifetime, however often that comes, and no longer. -/
theorem receive_once_at_expiry :
    let lifetime := Duration.ofSeconds 145
    let peer : Endpoint := ⟨1⟩
    let m : Message := { type := .nonConfirmable, code := .response .content, id := 5 }
    let request : Message := { type := .confirmable, code := .request .get, id := 5 }
    let history : History := [(0, .receive peer m), (7, .receive peer request),
      (lifetime - 1, .sweep), (lifetime - 1, .receive peer request)]
    Watched request ∧ (start .standard).forwarded history = [(0, .receive peer m)] ∧
      (((start .standard).run history).receive (lifetime - 1) peer request).1 = .consume ∧
      (((start .standard).run history).receive lifetime peer request).1 = .forward request := by
  intro lifetime peer m request history
  have hrequest : Watched request := .inl ⟨rfl, by decide⟩
  have hforwarded : (start .standard).forwarded history = [(0, .receive peer m)] := by
    decide +kernel
  have hlifetime : (start .standard).lifetime? m = some lifetime := by decide +kernel
  have hbefore : (history.map (·.1) ++ [lifetime - 1]).Pairwise (· ≤ ·) := by decide
  have hafter : (history.map (·.1) ++ [lifetime]).Pairwise (· ≤ ·) := by decide
  have hlast := receive_once .standard hbefore peer hrequest
  have hover := receive_once .standard hafter peer hrequest
  rw [hforwarded] at hlast hover
  refine ⟨hrequest, hforwarded, hlast.2.1.mpr ?_, hover.1.mpr ?_⟩
  · exact ⟨_, List.mem_singleton_self _, m, lifetime, rfl, rfl, hlifetime, by decide⟩
  · rintro ⟨e, he, m', lifetime', hevent, -, hlifetime', hlt⟩
    obtain rfl := List.mem_singleton.mp he
    cases hevent
    rw [hlifetime] at hlifetime'
    cases hlifetime'
    exact absurd hlt (by decide)

end Coap.Incoming
