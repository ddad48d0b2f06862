/-
# Two nodes that answer each other

Two nodes send each other messages, which arrive in any order, once or not at all.  A message
that is no request elicits a signal at most, and a signal elicits nothing.  So every message that
one of them sends of itself, or in answer to a request, makes for two arrivals at most, and the
nodes fall silent unless something else makes them speak.
-/
import Coap.Proofs.Engine.Elicited
import Mathlib.Algebra.BigOperators.Group.List.Basic
import Mathlib.Algebra.GroupWithZero.Nat
import Mathlib.Logic.Function.Basic

namespace Coap

/-- Two nodes, where each of them is, and the messages under way between them, each with the node
it is for. -/
structure Dialogue where
  node : Bool → Engine
  place : Bool → Endpoint
  underWay : List (Bool × Message)

namespace Dialogue

/-- What can happen to two nodes. -/
inductive Move
  /-- The message with this number, of those that are under way, arrives. -/
  | deliver (number : Nat)
  /-- Something happens at one of the nodes. -/
  | act (side : Bool) (event : Engine.Event)

/-- The node that a move changes, and what becomes of it. -/
def moved? (d : Dialogue) : Move → Option (Bool × Engine)
  | .deliver number => d.underWay[number]?.map fun x =>
    (x.1, (d.node x.1).receive (d.place !x.1) x.2)
  | .act side event => some (side, (d.node side).step event)

/-- The messages that a move puts under way: what the node sends to the other one. -/
def uttered (d : Dialogue) (move : Move) : List (Bool × Message) :=
  match d.moved? move with
  | none => []
  | some (side, e') =>
    ((e'.sent.drop (d.node side).sent.length).filter (·.1 = d.place !side)).map
      fun x => (!side, x.2)

/-- The messages that a move leaves under way. -/
def remaining (d : Dialogue) : Move → List (Bool × Message)
  | .deliver number => d.underWay.eraseIdx number
  | .act _ _ => d.underWay

/-- The nodes after a move. -/
def step (d : Dialogue) (move : Move) : Dialogue :=
  { d with
    node := match d.moved? move with
      | none => d.node
      | some (side, e') => Function.update d.node side e'
    underWay := d.remaining move ++ d.uttered move }

/-- A message arrives that is no request. -/
def isArrival (d : Dialogue) : Move → Bool
  | .deliver number =>
    match d.underWay[number]? with
    | some x => !x.2.isRequest
    | none => false
  | .act _ _ => false

/-- How many messages arrive that are no requests. -/
def arrivals (d : Dialogue) : List Move → Nat
  | [] => 0
  | move :: rest => (if d.isArrival move then 1 else 0) + (d.step move).arrivals rest

/-- How many messages are put under way by anything but such an arrival. -/
def causes (d : Dialogue) : List Move → Nat
  | [] => 0
  | move :: rest =>
    (if d.isArrival move then 0 else (d.uttered move).length) + (d.step move).causes rest

variable {d : Dialogue} {move : Move} {x : Bool × Message}

/-! ## How much is left to be said -/

/-- How many messages can come of a message under way, requests aside: itself, and the signal that
it may elicit. -/
def weight (x : Bool × Message) : Nat :=
  if x.2.isRequest then 0
  else match x.2.type with
    | .acknowledgement | .reset => 1
    | .confirmable | .nonConfirmable => 2

/-- How many messages can come of those under way. -/
def potential (d : Dialogue) : Nat := (d.underWay.map weight).sum

theorem weight_le (x : Bool × Message) : weight x ≤ 2 := by
  unfold weight
  split
  · exact Nat.zero_le 2
  · split <;> decide

theorem sum_weight_le (l : List (Bool × Message)) : (l.map weight).sum ≤ 2 * l.length := by
  induction l with
  | nil => exact Nat.le_refl 0
  | cons x rest ih =>
    have hx := weight_le x
    simp only [List.map_cons, List.sum_cons, List.length_cons]
    omega

/-- A message that arrives is no longer under way. -/
theorem sum_weight_eraseIdx {l : List (Bool × Message)} {n : Nat} (hx : l[n]? = some x) :
    weight x + ((l.eraseIdx n).map weight).sum = (l.map weight).sum := by
  obtain ⟨hn, rfl⟩ := List.getElem?_eq_some_iff.1 hx
  rw [← List.sum_cons, ← List.map_cons]
  exact ((List.getElem_cons_eraseIdx_perm hn).map weight).sum_eq

theorem sum_weight_remaining (d : Dialogue) (move : Move) :
    ((d.remaining move).map weight).sum ≤ d.potential := by
  cases move with
  | act => exact Nat.le_refl _
  | deliver number =>
    rw [remaining, potential]
    cases hx : d.underWay[number]? with
    | none =>
      have hsame : d.underWay.eraseIdx number = d.underWay :=
        List.eraseIdx_of_length_le (List.getElem?_eq_none_iff.1 hx)
      exact Nat.le_of_eq (by rw [hsame])
    | some x =>
      rw [← sum_weight_eraseIdx hx]
      exact Nat.le_add_left _ _

theorem potential_step (d : Dialogue) (move : Move) : (d.step move).potential =
    ((d.remaining move).map weight).sum + ((d.uttered move).map weight).sum := by
  rw [potential, step, List.map_append, List.sum_append]

/-- What a message elicits that is no request has less to follow than the message itself. -/
theorem sum_weight_echo (e : Engine) (peer : Endpoint) {m : Message} (side side' : Bool)
    (hrequest : ¬ m.isRequest = true) :
    (((e.echo peer m).map (side, ·)).map weight).sum < weight (side', m) := by
  rcases e.echo_cases peer m with hnone | ⟨htype, hsignal⟩
  · rw [hnone, weight, if_neg hrequest]
    split <;> exact Nat.succ_pos _
  · have hm : weight (side', m) = 2 := by
      rw [weight, if_neg hrequest]
      rcases htype with htype | htype <;> simp only [htype]
    rw [hm]
    rcases hsignal with hsignal | hsignal <;> rw [hsignal] <;> exact Nat.lt_succ_self 1

/-- What a node sends when a message arrives that is no request. -/
theorem uttered_deliver {number : Nat} (hx : d.underWay[number]? = some x)
    (hrequest : ¬ x.2.isRequest = true) : d.uttered (.deliver number) =
      if (d.node x.1).outboxOpen then
        ((d.node x.1).echo (d.place !x.1) x.2).map (!x.1, ·)
      else [] := by
  have helicits := (Engine.elicits_absorb hrequest (d.node x.1) (d.place !x.1)).receive
  unfold uttered moved?
  simp only [hx, Option.map_some]
  rw [helicits.sent, List.drop_left, Engine.posted]
  split
  · simp [List.filter_map, Function.comp_def]
  · rfl

theorem exists_of_isArrival (h : d.isArrival move) : ∃ number x,
    move = .deliver number ∧ d.underWay[number]? = some x ∧ ¬ x.2.isRequest = true := by
  cases move with
  | act => cases h
  | deliver number =>
    rw [isArrival] at h
    split at h
    · next x hx => exact ⟨number, x, rfl, hx, by simpa using h⟩
    · cases h

/-- **An arrival leaves less to be said.** -/
theorem potential_lt_of_isArrival (h : d.isArrival move) :
    (d.step move).potential < d.potential := by
  obtain ⟨number, x, rfl, hx, hrequest⟩ := exists_of_isArrival h
  have hecho : ((d.uttered (.deliver number)).map weight).sum < weight x := by
    rw [uttered_deliver hx hrequest]
    split
    · exact sum_weight_echo _ _ _ _ hrequest
    · exact Nat.zero_lt_of_lt (sum_weight_echo (d.node x.1) (d.place !x.1) true x.1 hrequest)
  have hleft := sum_weight_eraseIdx hx
  rw [potential_step, remaining, potential]
  omega

/-- Any other move leaves as much more to be said as it puts under way. -/
theorem potential_step_le (d : Dialogue) (move : Move) :
    (d.step move).potential ≤ d.potential + 2 * (d.uttered move).length := by
  rw [potential_step]
  exact Nat.add_le_add (sum_weight_remaining d move) (sum_weight_le _)

/-- **The arrivals of a run are bounded by what set them off.** -/
theorem arrivals_le (d : Dialogue) (moves : List Move) :
    d.arrivals moves ≤ d.potential + 2 * d.causes moves := by
  induction moves generalizing d with
  | nil => exact Nat.zero_le _
  | cons move rest ih =>
    have hrest := ih (d.step move)
    rw [arrivals, causes]
    by_cases h : d.isArrival move
    · have hstep := potential_lt_of_isArrival h
      rw [if_pos h, if_pos h]
      omega
    · have hstep := potential_step_le d move
      rw [if_neg h, if_neg h]
      omega

end Dialogue

/-- **No message loops.**  In every state that a node can reach, an acknowledgement or a reset of
any code elicits nothing; a confirmable response elicits the empty acknowledgement with its ID; a
non-confirmable response elicits a reset with its ID if it is not known and nobody waits for it,
and nothing otherwise; a confirmable message that is neither a request nor a response elicits a
reset with its ID, and a non-confirmable one nothing.  Whatever else happens because of these
messages, now or when an exchange that they end is concluded, sends nothing.

So two nodes do not go on answering each other: at any time, at most twice as many messages that
are no requests have arrived as were under way in the beginning or were put under way by something
else than such an arrival. -/
theorem no_message_loops (c : Config) (chances : Chances) (service : Service)
    (resources : List (String × Resource)) (before : List Engine.Event) (peer : Endpoint)
    (m : Message) :
    let e := (Engine.start c chances service resources).run before
    let e' := e.handle peer (.ok m)
    let known := e.incoming.Remembers e.now ⟨peer, m.id⟩
    let awaited := (e.conversations.get? ⟨peer, m.token⟩).isSome
    (m.type = .acknowledgement ∨ m.type = .reset → e.Elicits peer [] e') ∧
    (m.type = .confirmable → m.isResponse → e.Elicits peer [.emptyAck m.id] e') ∧
    (m.type = .nonConfirmable → m.isResponse →
      (known ∨ awaited → e.Elicits peer [] e') ∧
      (¬ known → ¬ awaited → e.Elicits peer [.resetOf m.id] e')) ∧
    (¬ m.isRequest → ¬ m.isResponse →
      (m.type = .confirmable → e.Elicits peer [.resetOf m.id] e') ∧
      (m.type = .nonConfirmable → e.Elicits peer [] e')) ∧
    (∀ event, e.Elicits peer [] (e.conclude event)) ∧ (e.absorb peer m).sent = e'.sent ∧
    ∀ (d : Dialogue) (moves : List Dialogue.Move),
      d.arrivals moves ≤ 2 * (d.underWay.length + d.causes moves) := by
  intro e e' known awaited
  have hecho (hrequest : ¬ m.isRequest = true) : e.Elicits peer (e.echo peer m) e' :=
    (Engine.elicits_absorb hrequest e peer).receive
  have hresponse (h : m.isResponse = true) : ¬ m.isRequest = true := by
    simp [Message.isRequest_of_isResponse h]
  refine ⟨fun htype => ?_, fun htype h => ?_, fun htype h => ⟨fun hcalled => ?_, fun hnew hnone => ?_⟩,
    fun hrequest h => ⟨fun htype => ?_, fun htype => ?_⟩, fun event => ?_, ?_, fun d moves => ?_⟩
  · exact (Engine.elicits_absorb_of_closing htype e peer).receive
  · simpa [Engine.echo, Message.receipt, htype, h] using hecho (hresponse h)
  · have hunasked : ¬ e.Unasked peer m := fun hunasked => by
      obtain ⟨hnew, hnone⟩ := Engine.unasked_iff.1 hunasked
      rcases hcalled with hknown | hawaited
      · exact hnew hknown
      · simp [awaited, hnone] at hawaited
    simpa [Engine.echo, Message.receipt, htype, hunasked] using hecho (hresponse h)
  · have hunasked : e.Unasked peer m :=
      Engine.unasked_iff.2 ⟨hnew, by simpa [awaited] using hnone⟩
    simpa [Engine.echo, Message.receipt, htype, h, hunasked] using hecho (hresponse h)
  · simpa [Engine.echo, Message.receipt, htype, h] using hecho hrequest
  · simpa [Engine.echo, Message.receipt, htype, h] using hecho hrequest
  · exact .of_silent (Engine.Clerical.conclude e event).silent
  · exact (Engine.clerical_receive e peer m).sent.symm
  · have hsaid := d.arrivals_le moves
    have hpotential : d.potential ≤ 2 * d.underWay.length := Dialogue.sum_weight_le _
    omega

/-- A response that nobody waits for is rejected the first time, and the two messages that arrive
of it are as many as can. -/
theorem no_message_loops_after_response :
    let chances : Chances := ⟨.constant 1000, .constant (.ofNat 100), .constant 0, .constant 0⟩
    let service : Service := fun _ => { reaction := .hold }
    let node := Engine.start .standard chances service []
    let m : Message := { type := .nonConfirmable, code := .response .content, id := 7 }
    let d : Dialogue :=
      { node := fun _ => node, place := fun side => ⟨side.toNat⟩, underWay := [(true, m)] }
    let moves := List.replicate 3 (Dialogue.Move.deliver 0)
    (node.handle ⟨0⟩ (.ok m)).sent = [(⟨0⟩, .resetOf 7)] ∧
    ((node.handle ⟨0⟩ (.ok m)).handle ⟨0⟩ (.ok m)).sent = [(⟨0⟩, .resetOf 7)] ∧
    d.arrivals moves = 2 ∧ d.arrivals moves ≤ 2 * (d.underWay.length + d.causes moves) := by
  intro chances service node m d moves
  have hnew : ¬ node.incoming.Remembers node.now ⟨⟨0⟩, m.id⟩ := by
    rw [← Incoming.live?_eq_none_iff]
    decide +kernel
  have hknown : (node.handle ⟨0⟩ (.ok m)).incoming.Remembers (node.handle ⟨0⟩ (.ok m)).now
      ⟨⟨0⟩, m.id⟩ := by
    rw [Incoming.remembers_iff]
    exact Option.isSome_iff_exists.1 (by decide +kernel)
  obtain ⟨-, -, hfirst, -, -, -, hbound⟩ :=
    no_message_loops .standard chances service [] [] ⟨0⟩ m
  obtain ⟨-, -, hagain, -⟩ :=
    no_message_loops .standard chances service [] [.handle ⟨0⟩ (.ok m)] ⟨0⟩ m
  have hsent := ((hfirst rfl (by decide)).2 hnew (by decide +kernel)).sent
  have hresent := ((hagain rfl (by decide)).1 (.inl hknown)).sent
  exact ⟨hsent, hresent.trans (by decide +kernel), by decide +kernel, hbound d moves⟩

end Coap
