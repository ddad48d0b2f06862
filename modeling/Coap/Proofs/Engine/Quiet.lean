/-
# What serving leaves alone

A node serves requests and sends requests of its own, and the two meet in few places.  This
file says that nothing a node does to serve others, to send a message, or to tell observers of
a change touches the requests it sent itself: they stay as they are, and their requesters are
told nothing.
-/
import Coap.Proofs.Engine.Frames

namespace Coap

/-! ## What requesters are told -/

deriving instance DecidableEq for Report

/-- What a requester was told, and when. -/
def LogEntry.report? (x : LogEntry) : Option (Instant × String × Endpoint × Report) :=
  match x.occurrence with
  | .reported requester peer r => some (x.time, requester, peer, r)
  | _ => none

namespace Engine

/-- Everything that requesters were told so far, in order. -/
def reported (e : Engine) : List (Instant × String × Endpoint × Report) :=
  e.history.filterMap LogEntry.report?

/-- What one requester was told so far, in order. -/
def reportsTo (e : Engine) (requester : String) : List Report :=
  (e.reported.filter (·.2.1 = requester)).map (·.2.2.2)

theorem reported_note (e : Engine) (o : Occurrence) :
    (e.note o).reported = e.reported ++ (LogEntry.report? ⟨e.now, o⟩).toList := by
  cases hreport : LogEntry.report? ⟨e.now, o⟩ <;>
    simp [reported, history, note, List.filterMap_append, hreport]

theorem reportsTo_congr {e e' : Engine} (h : e'.reported = e.reported) (requester : String) :
    e'.reportsTo requester = e.reportsTo requester := by
  rw [reportsTo, reportsTo, h]

/-- Only the requester that is told something has more to look back on. -/
theorem reportsTo_note_reported (e : Engine) (name requester : String) (peer : Endpoint)
    (r : Report) : (e.note (.reported name peer r)).reportsTo requester =
      e.reportsTo requester ++ if name = requester then [r] else [] := by
  rw [reportsTo, reported_note]
  by_cases h : name = requester <;> simp [LogEntry.report?, reportsTo, h]

/-! ## Quiet steps -/

/-- Nothing happens to the requests of this node, to their tokens and deadlines, and to what
their requesters know. -/
structure Quiet (e e' : Engine) : Prop where
  now : e'.now = e.now
  conversations : e'.conversations = e.conversations
  nextNumber : e'.nextNumber = e.nextNumber
  tokens : e'.tokens = e.tokens
  deadlines : e'.deadlines = e.deadlines
  withdrawing : e'.withdrawing = e.withdrawing
  responseTimeout : e'.responseTimeout = e.responseTimeout
  reported : e'.reported = e.reported

variable {e e' e'' : Engine}

namespace Quiet

theorem refl (e : Engine) : Quiet e e := ⟨rfl, rfl, rfl, rfl, rfl, rfl, rfl, rfl⟩

theorem trans (h : Quiet e e') (h' : Quiet e' e'') : Quiet e e'' where
  now := h'.now.trans h.now
  conversations := h'.conversations.trans h.conversations
  nextNumber := h'.nextNumber.trans h.nextNumber
  tokens := h'.tokens.trans h.tokens
  deadlines := h'.deadlines.trans h.deadlines
  withdrawing := h'.withdrawing.trans h.withdrawing
  responseTimeout := h'.responseTimeout.trans h.responseTimeout
  reported := h'.reported.trans h.reported

/-- What is no report may be written to the log. -/
theorem note (e : Engine) {o : Occurrence} (h : LogEntry.report? ⟨e.now, o⟩ = none) :
    Quiet e (e.note o) := by
  refine ⟨rfl, rfl, rfl, rfl, rfl, rfl, rfl, ?_⟩
  rw [reported_note, h]
  simp

/-- The layers and the requests that wait for their responses may change. -/
theorem layers (e : Engine) (outgoing : Outgoing) (incoming : Incoming) (transfers : Transfers)
    (subscriptions : Subscriptions) (delayed : List Delayed) :
    Quiet e { e with outgoing, incoming, transfers, subscriptions, delayed } :=
  ⟨rfl, rfl, rfl, rfl, rfl, rfl, rfl, rfl⟩

/-- Serving is quiet, whatever the tokens are. -/
theorem frame : ServingFrame Quiet fun _ _ => True where
  refl := refl
  trans := trans
  sent e _ _ := note e rfl
  called e _ := note e rfl
  incoming e _ := layers e _ _ _ _ _
  transfers e _ := layers e _ _ _ _ _
  numbered e _ _ _ := layers e _ _ _ _ _
  subscribed e _ _ _ _ := layers e _ _ _ _ _
  rendered e _ _ := layers e _ _ _ _ _
  delayed e _ _ := layers e _ _ _ _ _

theorem sendThrough (e : Engine) (peer : Endpoint) (m : Message) (request? : Option Message) :
    Quiet e (e.sendThrough peer m request?).2 :=
  frame.sendThrough e (.inl trivial) request?

theorem announce (e : Engine) (id : ResourceId) (event : ResourceEvent) :
    Quiet e (e.announce id event) :=
  (layers e _ _ _ _ _).trans (frame.sendNotifications (fun e _ _ => layers e _ _ _ _ _) _ (fun _ _ => trivial) _)

theorem resumeDue (e : Engine) (now : Instant) : Quiet e (resumeDue now e) :=
  (layers e _ _ _ _ _).trans (frame.resume _ (fun _ _ => trivial) _)

end Quiet

end Engine

end Coap
