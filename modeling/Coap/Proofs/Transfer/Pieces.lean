/-
# Request bodies in pieces

A peer sends a request body in blocks, each of which says where it belongs.  What has arrived
for a conversation is a list of pieces.  Those since the most recent first block are `Current`,
they are `Exact` if each of them begins where the ones before it end, and their payloads one
after the other are the body.
-/
import Coap.Proofs.LastEvent
import Coap.Transfer

namespace Coap.Transfers

/-! ## Histories -/

/-- What happens at this layer. -/
inductive Event
  | receive (peer : Endpoint) (m : Message)
  | send (peer : Endpoint) (m : Message) (request? : Option Message)

/-- What happened when. -/
abbrev History := List (Instant × Event)

/-- The state after an event. -/
def step (s : Transfers) (now : Instant) : Event → Transfers
  | .receive peer m => (s.receive now peer m).2
  | .send peer m request? => (s.send now peer m request?).2

/-- The state after a history. -/
def run (s : Transfers) : History → Transfers
  | [] => s
  | (t, event) :: rest => run (s.step t event) rest

theorem run_concat (s : Transfers) (history : History) (t : Instant) (event : Event) :
    s.run (history ++ [(t, event)]) = (s.run history).step t event := by
  induction history generalizing s with
  | nil => rfl
  | cons e rest ih => exact ih _

/-- The clock of a history does not go back. -/
def Ordered (history : History) : Prop := history.Pairwise fun e e' => e.1 ≤ e'.1

instance {history : History} : Decidable (Ordered history) :=
  inferInstanceAs (Decidable (history.Pairwise _))

/-! ## Pieces -/

/-- A block of a request body: when it arrived, where it belongs, and the request it came in. -/
structure Piece where
  time : Instant
  block : Block
  message : Message
deriving DecidableEq

/-- All that the block can hold is there, and another one is to come. -/
def Piece.Full (p : Piece) : Prop := p.block.more ∧ p.message.payload.length = p.block.size

/-- The piece that an event brings to a conversation. -/
def piece? (key : ConversationKey) : Instant × Event → Option Piece
  | (t, .receive peer m) =>
    if peer = key.peer ∧ m.token = key.token ∧ m.isRequest then
      m.block1?.map fun block => ⟨t, block, m⟩
    else none
  | (_, .send ..) => none

/-- The pieces that have arrived for a conversation, in order. -/
def pieces (key : ConversationKey) (history : History) : List Piece :=
  history.filterMap (piece? key)

/-- The payloads of pieces, one after the other. -/
def body (l : List Piece) : Bytes := l.flatMap fun p => p.message.payload

variable {key : ConversationKey} {history : History} {t : Instant} {event : Event}
  {l arrived current : List Piece} {p : Piece}

/-- A piece is a request with such a block, under the token of the key. -/
theorem piece?_eq_some_iff : piece? key (t, event) = some p ↔
    event = .receive key.peer p.message ∧ p.time = t ∧ p.message.token = key.token ∧
      p.message.isRequest ∧ p.message.block1? = some p.block := by
  obtain ⟨time, block, message⟩ := p
  cases event with
  | send => simp [piece?]
  | receive peer m =>
    rw [piece?]
    by_cases h : peer = key.peer ∧ m.token = key.token ∧ m.isRequest
    · obtain ⟨rfl, htoken, hrequest⟩ := h
      simp only [htoken, hrequest, and_self, if_true, Option.map_eq_some_iff, Piece.mk.injEq,
        Event.receive.injEq, true_and]
      constructor
      · rintro ⟨_, hblock, rfl, rfl, rfl⟩
        exact ⟨rfl, rfl, htoken, hrequest, hblock⟩
      · rintro ⟨rfl, rfl, -, -, hblock⟩
        exact ⟨block, hblock, rfl, rfl, rfl⟩
    · rw [if_neg h]
      refine ⟨nofun, ?_⟩
      rintro ⟨he, -, htoken, hrequest, -⟩
      cases he
      exact absurd ⟨rfl, htoken, hrequest⟩ h

theorem pieces_concat : pieces key (history ++ [(t, event)]) =
    pieces key history ++ (piece? key (t, event)).toList := by
  rw [pieces, List.filterMap_append]
  cases h : piece? key (t, event) <;> simp [pieces, h]

theorem body_concat (l : List Piece) (p : Piece) :
    body (l ++ [p]) = body l ++ p.message.payload := by
  simp [body]

/-! ## The pieces since the most recent first block -/

/-- The pieces since the most recent one with number 0. -/
def Current (arrived current : List Piece) : Prop :=
  ∃ older first later, arrived = older ++ current ∧ current = first :: later ∧
    first.block.number = 0 ∧ ∀ p ∈ later, p.block.number ≠ 0

/-- A first piece begins anew. -/
theorem current_concat_first (hfirst : p.block.number = 0) :
    Current (arrived ++ [p]) current ↔ current = [p] := by
  constructor
  · rintro ⟨older, first, later, harrived, rfl, -, hlater⟩
    rcases concat_eq_append_cons harrived with ⟨-, rfl, rfl⟩ | ⟨init, rfl, -⟩
    · rfl
    · exact absurd hfirst (hlater p (List.mem_append_right _ (List.mem_singleton_self p)))
  · rintro rfl
    exact ⟨arrived, p, [], rfl, rfl, hfirst, by simp⟩

/-- A later piece goes on. -/
theorem current_concat_later (hlater : p.block.number ≠ 0) :
    Current (arrived ++ [p]) current ↔ ∃ l, Current arrived l ∧ current = l ++ [p] := by
  constructor
  · rintro ⟨older, first, later, harrived, rfl, hfirst, hrest⟩
    rcases concat_eq_append_cons harrived with ⟨-, rfl, -⟩ | ⟨init, rfl, rfl⟩
    · exact absurd hfirst hlater
    · exact ⟨first :: init, ⟨older, first, init, rfl, rfl, hfirst,
        fun q hq => hrest q (List.mem_append_left _ hq)⟩, rfl⟩
  · rintro ⟨l, ⟨older, first, later, rfl, rfl, hfirst, hrest⟩, rfl⟩
    refine ⟨older, first, later ++ [p], by rw [List.append_assoc], rfl, hfirst, ?_⟩
    intro q hq
    rcases List.mem_append.mp hq with hq | hq
    · exact hrest q hq
    · rwa [List.mem_singleton.mp hq]

theorem Current.last_eq {init : List Piece} {last : Piece}
    (h : Current (arrived ++ [p]) (init ++ [last])) : last = p := by
  obtain ⟨older, first, later, harrived, -⟩ := h
  rw [← List.append_assoc] at harrived
  exact (List.singleton_inj.mp (List.append_inj' harrived rfl).2).symm

theorem Current.exists_concat (h : Current arrived current) :
    ∃ init last, current = init ++ [last] := by
  obtain ⟨-, first, later, -, rfl, -⟩ := h
  exact ⟨_, _, (List.dropLast_concat_getLast (List.cons_ne_nil first later)).symm⟩

/-- Without another first block, the current pieces become more. -/
theorem Current.of_append {rest : List Piece} (h : Current (arrived ++ rest) current)
    (hrest : ∀ p ∈ rest, p.block.number ≠ 0) : ∃ l, Current arrived l ∧ current = l ++ rest := by
  induction rest using List.reverseRecOn generalizing current with
  | nil => exact ⟨current, by rwa [List.append_nil] at h, (List.append_nil _).symm⟩
  | append_singleton init last ih =>
    obtain ⟨hinit, hlast⟩ := List.forall_mem_append.mp hrest
    rw [← List.append_assoc,
      current_concat_later (hlast last (List.mem_singleton_self last))] at h
    obtain ⟨l', hl', rfl⟩ := h
    obtain ⟨l, hl, rfl⟩ := ih hl' hinit
    exact ⟨l, hl, List.append_assoc ..⟩

/-! ## Pieces without gaps -/

/-- Each piece begins where the ones before it end, and all but the last are full. -/
structure Exact (l : List Piece) : Prop where
  offset : ∀ before p after, l = before ++ p :: after →
    p.block.number * p.block.size = (body before).length
  full : ∀ before p after, l = before ++ p :: after → after ≠ [] → p.Full

theorem exact_nil : Exact [] :=
  ⟨fun _ _ _ h => by simp at h, fun _ _ _ h => by simp at h⟩

/-- Another piece is exact if it begins where the full ones before it end. -/
theorem exact_concat_iff : Exact (l ++ [p]) ↔
    Exact l ∧ (∀ q ∈ l, q.Full) ∧ p.block.number * p.block.size = (body l).length := by
  constructor
  · intro h
    have hmore {before after : List Piece} {q : Piece} (hl : l = before ++ q :: after) :
        l ++ [p] = before ++ q :: (after ++ [p]) := by
      rw [hl, List.append_assoc, List.cons_append]
    refine ⟨⟨?_, ?_⟩, ?_, h.offset l p [] rfl⟩
    · exact fun before q after hl => h.offset before q _ (hmore hl)
    · exact fun before q after hl _ => h.full before q _ (hmore hl) (by simp)
    · intro q hq
      obtain ⟨before, after, hl⟩ := List.mem_iff_append.mp hq
      exact h.full before q _ (hmore hl) (by simp)
  · rintro ⟨hexact, hfull, hoffset⟩
    refine ⟨fun before q after hl => ?_, fun before q after hl hne => ?_⟩
    · rcases concat_eq_append_cons hl with ⟨rfl, rfl, -⟩ | ⟨init, -, hinit⟩
      · exact hoffset
      · exact hexact.offset before q init hinit
    · rcases concat_eq_append_cons hl with ⟨-, -, rfl⟩ | ⟨init, rfl, rfl⟩
      · exact absurd rfl hne
      · exact hfull q (List.mem_append_right _ (List.mem_cons_self ..))

/-- Two pieces without a gap, the first of them full. -/
theorem exact_pair {p q : Piece} (hp : p.block.number * p.block.size = 0) (hfull : p.Full)
    (hq : q.block.number * q.block.size = p.block.size) : Exact [p, q] := by
  refine exact_concat_iff (l := [p]).mpr ⟨exact_concat_iff (l := []).mpr ⟨exact_nil, by simp, hp⟩,
    by simpa using hfull, ?_⟩
  rw [hq, ← hfull.2]
  simp [body]

/-- Pieces that have no gap up to some point have none before it. -/
theorem Exact.left {l' : List Piece} (h : Exact (l ++ l')) : Exact l := by
  induction l' using List.reverseRecOn with
  | nil => rwa [List.append_nil] at h
  | append_singleton init last ih =>
    rw [← List.append_assoc] at h
    exact ih (exact_concat_iff.mp h).1

end Coap.Transfers
