/-
# Responses that are owed

Every request that is handed to the service is owed a response, unless its handler keeps it for
good.  The response leaves in one of the answers, or the request is still waiting for it: an
event changes nothing about that (`owed_step`), and when the clock has gone on nobody waits any
longer whose wait is over.
-/
import Coap.Proofs.Engine.Answering

namespace Coap

/-- Whether a response is owed: the handler does not keep the request for good. -/
def Task.isOwed (t : Task) : Bool :=
  match t.reaction with
  | .hold => false
  | _ => true

namespace Engine

open scoped List

variable {e e' : Engine} {peer : Endpoint} {m request : Message}

/-- Those of some requests that are owed a response. -/
def owed (tasks : List Task) : List Task := tasks.filter Task.isOwed

/-- What is owed in two lists of tasks is owed in both together. -/
theorem owed_append (l l' : List Task) : owed (l ++ l') = owed l ++ owed l' :=
  List.filter_append _ _

/-! ## Requests that wait -/

/-- Transmitting leaves those who wait alone. -/
theorem delayed_transmitAll (messages : List (Endpoint × Message)) (e : Engine) :
    (e.transmitAll messages).delayed = e.delayed := by
  obtain ⟨log, hlog⟩ := transmitAll_frame messages e
  rw [hlog]

/-- Only reactions make requests wait. -/
theorem delayed_frame :
    SendingFrame (fun e e' => e'.delayed = e.delayed) fun _ _ => True where
  header _ _ := trivial
  trans h h' := h'.trans h
  silent h := h.delayed
  reliably e peer m _ := by
    obtain ⟨outgoing, messages, hsent, -, -⟩ := sendReliably_frame e peer m
    rw [hsent, delayed_transmitAll]
  rejected e peer id := delayed_transmitAll [(peer, .resetOf id)] e
  repeated _ := delayed_transmitAll _ _
  swept e := by
    unfold Engine.sweepDue
    split
    · exact delayed_transmitAll _ _
    · rfl
  clock _ _ _ := rfl
  closed _ := rfl

/-- What is heard leaves those who wait alone. -/
theorem delayed_heard (e : Engine) (peer : Endpoint) (m : Message) :
    (e.heard peer m).delayed = e.delayed := by
  obtain ⟨outgoing, incoming, log, hheard⟩ := heard_frame e peer m
  rw [hheard]

/-- A rejection leaves those who wait alone. -/
theorem delayed_reject (e : Engine) (peer : Endpoint) (fault : Datagram.DecodeFault) :
    (e.reject peer fault).delayed = e.delayed := by
  obtain ⟨outgoing, messages, hreject, -⟩ := reject_frame e peer fault
  rw [hreject, delayed_transmitAll]

/-- A reaction lets one request wait at most. -/
theorem delayed_react (e : Engine) (peer : Endpoint) (request : Message) (reaction : Reaction) :
    (e.react peer request reaction).delayed =
      e.delayed ++ (e.wait? peer request reaction).toList := by
  rw [react_eq]
  cases hanswering : e.answering? peer request reaction with
  | none => rfl
  | some a =>
    rw [wait?_of_answering? hanswering, Option.toList_none, List.append_nil]
    have hafter : a.after.delayed = a.node.delayed :=
      delayed_frame.sendThrough a.node a.peer trivial _
    exact hafter.trans (silent_answering? hanswering).delayed

/-! ## What is owed and what is answered -/

/-- A request that is owed a response is answered, or waits: exactly one of these. -/
theorem owed_react (e : Engine) (peer : Endpoint) (request : Message) (reaction : Reaction) :
    owed ((e.answering? peer request reaction).toList.map (·.toTask) ++
      (e.wait? peer request reaction).toList.map Delayed.task) =
        owed [⟨peer, request, reaction.eventual⟩] := by
  induction reaction with
  | respond | fail | render | abandon | hold => rfl
  | after delay reaction ih =>
    unfold answering? wait?
    split
    · exact ih
    · rfl

/-- What is due is answered or waits on, and none of it is lost. -/
theorem owed_resume (due : List Delayed) (e : Engine) :
    owed ((e.resumed due).map (·.toTask) ++ (e.resume due).delayed.map Delayed.task) ~
      owed (e.delayed.map Delayed.task ++ due.map Delayed.task) := by
  induction due generalizing e with
  | nil => simp [resumed, resume]
  | cons d rest ih =>
    have hone := owed_react e d.peer d.request d.reaction
    have hrest := ih (e.react d.peer d.request d.reaction)
    rw [delayed_react] at hrest
    have htask : (d :: rest).map Delayed.task = [d.task] ++ rest.map Delayed.task := rfl
    rw [htask, show e.resume (d :: rest) = (e.react d.peer d.request d.reaction).resume rest
      from rfl, resumed]
    simp only [List.map_append, owed_append, List.append_assoc] at hone hrest ⊢
    rw [show owed [d.task] = _ from hone.symm, List.append_assoc]
    refine (hrest.append_left _).trans ?_
    exact List.perm_append_comm_assoc _ _ _

/-- The same is true of all that is due at a time. -/
theorem owed_resumeDue (now : Instant) (e : Engine) :
    owed ((resumedAt now e).map (·.toTask) ++ (resumeDue now e).delayed.map Delayed.task) ~
      owed (e.delayed.map Delayed.task) := by
  let due := e.delayed.filter (·.due ≤ now)
  let left := e.delayed.filter (now < ·.due)
  have hparts : left ++ due ~ e.delayed := by
    have hleft : left = e.delayed.filter fun d => !decide (d.due ≤ now) := by
      refine List.filter_congr fun d _ => ?_
      rw [← decide_not]
      exact decide_eq_decide.2 Nat.not_le.symm
    rw [hleft]
    exact List.perm_append_comm.trans (List.filter_append_perm _ _)
  have hresumed := owed_resume due { e with delayed := left }
  have htasks := hparts.map Delayed.task
  rw [List.map_append] at htasks
  exact hresumed.trans (htasks.filter _)

/-- A request is served in those events only that may answer. -/
theorem servings_of_not_mayAnswer {event : Event} (h : ¬ event.MayAnswer) :
    e.servings event = [] := by
  cases event with
  | handle peer decoded =>
    cases decoded with
    | error fault => rfl
    | ok m => exact absurd trivial h
  | absorb | resumeDue | fire => exact absurd trivial h
  | _ => rfl

/-- A request that comes in is answered or waits. -/
theorem owed_absorb (e : Engine) (peer : Endpoint) (m : Message) :
    owed ((e.answerings (.absorb peer m)).map (·.toTask) ++
      (e.absorb peer m).delayed.map Delayed.task) ~
        owed (e.delayed.map Delayed.task ++ (e.servings (.absorb peer m)).map Serving.task) := by
  have hheard := delayed_heard e peer m
  unfold answerings servings
  simp only
  cases hhanded : e.handed? peer m with
  | none =>
    have habsorbed := (delayed_frame.absorb hhanded fun _ _ _ => trivial).trans hheard
    simp [habsorbed]
  | some request =>
    let reaction := (e.service { message := request, peer }).reaction
    have hreached := (delayed_frame.reached e peer m request).trans hheard
    have hone := owed_react (e.reached peer m request) peer request reaction
    rw [absorb_of_handed hhanded, delayed_react, hreached]
    simp only [Option.toList_some, List.flatMap_cons, List.flatMap_nil, List.append_nil,
      List.map_append, owed_append, List.map_cons, List.map_nil] at hone ⊢
    have htask : owed [Serving.task ⟨peer, request, e.service { message := request, peer }⟩] = _ :=
      hone.symm
    rw [htask]
    exact List.perm_append_comm_assoc _ _ _

/-- **No response that is owed gets lost.**  The requests that waited for their responses and
those that are new are answered, or they wait: each of them exactly once. -/
theorem owed_step {event : Event} (htimely : event.Timely e) :
    owed ((e.answerings event).map (·.toTask) ++ (e.step event).delayed.map Delayed.task) ~
      owed (e.delayed.map Delayed.task ++ (e.servings event).map Serving.task) := by
  -- what may answer does so in one place, and what comes before or after lets everyone wait
  by_cases hevent : event.MayAnswer
  · cases event with
    | handle peer decoded =>
      cases decoded with
      | error fault => exact absurd hevent id
      | ok m =>
        show owed (_ ++ (e.receive peer m).delayed.map Delayed.task) ~ _
        rw [(clerical_receive e peer m).delayed]
        exact owed_absorb e peer m
    | absorb peer m => exact owed_absorb e peer m
    | resumeDue now =>
      have hnone : e.servings (.resumeDue now) = [] := rfl
      rw [hnone, List.map_nil, List.append_nil]
      exact owed_resumeDue now e
    | fire now =>
      have hbefore : (beforeResuming now e).delayed = e.delayed :=
        delayed_frame.beforeResuming htimely
      have hnone : e.servings (.fire now) = [] := rfl
      show owed (_ ++ (fire now e).delayed.map Delayed.task) ~ _
      rw [hnone, List.map_nil, List.append_nil, (clerical_fire now e).delayed, ← hbefore]
      exact owed_resumeDue now (beforeResuming now e)
    | _ => exact absurd hevent id
  · have hsame : (e.step event).delayed = e.delayed := delayed_frame.step hevent htimely
      (.of_full fun _ => trivial)
      (fun peer fault _ => delayed_reject e peer fault)
      (fun peer m r _ => delayed_frame.submit e peer m r fun _ _ => trivial)
    rw [answerings_of_not_mayAnswer hevent, servings_of_not_mayAnswer hevent, hsame, List.map_nil,
      List.map_nil, List.append_nil, List.nil_append]

/-! ## Histories -/

/-- Something that happens to a node, and how its handlers behave at that time. -/
structure Turn where
  service : Service
  event : Event

/-- The node after something has happened to it. -/
def after (e : Engine) (turn : Turn) : Engine := (e.under turn.service).step turn.event

/-- The node after a history. -/
def play (e : Engine) : List Turn → Engine
  | [] => e
  | turn :: rest => (e.after turn).play rest

/-- Turns may be played in two parts. -/
theorem play_append (e : Engine) (before after : List Turn) :
    e.play (before ++ after) = (e.play before).play after := by
  induction before generalizing e with
  | nil => rfl
  | cons turn rest ih => exact ih _

/-- What the events of a history bring, in order. -/
def gather {α : Type} (f : Engine → Event → List α) (e : Engine) : List Turn → List α
  | [] => []
  | turn :: rest => f (e.under turn.service) turn.event ++ (e.after turn).gather f rest

/-- What is gathered from turns in two parts is gathered from both. -/
theorem gather_append {α : Type} (f : Engine → Event → List α) (e : Engine)
    (before after : List Turn) :
    e.gather f (before ++ after) = e.gather f before ++ (e.play before).gather f after := by
  induction before generalizing e with
  | nil => rfl
  | cons turn rest ih => rw [List.cons_append, gather, gather, ih, play, List.append_assoc]

/-- What is gathered comes from one of the turns. -/
theorem mem_gather {α : Type} {f : Engine → Event → List α} {x : α} {turns : List Turn}
    (h : x ∈ e.gather f turns) : ∃ before turn after, turns = before ++ turn :: after ∧
      x ∈ f ((e.play before).under turn.service) turn.event := by
  induction turns generalizing e with
  | nil => cases h
  | cons turn rest ih =>
    rcases List.mem_append.1 h with hfirst | hrest
    · exact ⟨[], turn, rest, rfl, hfirst⟩
    · obtain ⟨before, turn', after, rfl, hx⟩ := ih hrest
      exact ⟨turn :: before, turn', after, rfl, hx⟩

/-- Whatever comes from one of the turns is gathered. -/
theorem gather_of_mem {α : Type} {f : Engine → Event → List α} {x : α} {before : List Turn}
    {turn : Turn} {after : List Turn} (h : x ∈ f ((e.play before).under turn.service) turn.event) :
    x ∈ e.gather f (before ++ turn :: after) := by
  rw [gather_append]
  exact List.mem_append_right _ (List.mem_append_left _ h)

/-- The clock never goes back in a history. -/
def Timely (e : Engine) : List Turn → Prop
  | [] => True
  | turn :: rest => turn.event.Timely e ∧ (e.after turn).Timely rest

/-- Turns in the order of time stay so when they are split. -/
theorem Timely.append {before after : List Turn} (h : e.Timely (before ++ after)) :
    e.Timely before ∧ (e.play before).Timely after := by
  induction before generalizing e with
  | nil => exact ⟨trivial, h⟩
  | cons turn rest ih =>
    obtain ⟨hrest, hafter⟩ := ih h.2
    exact ⟨⟨h.1, hrest⟩, hafter⟩

/-- **Every response that is owed is given once, or is still to come.** -/
theorem owed_play (turns : List Turn) (e : Engine) (htimely : e.Timely turns) :
    owed ((e.gather answerings turns).map (·.toTask) ++
      (e.play turns).delayed.map Delayed.task) ~
        owed (e.delayed.map Delayed.task ++ (e.gather servings turns).map Serving.task) := by
  induction turns generalizing e with
  | nil => simp [gather, play]
  | cons turn rest ih =>
    have hunder : turn.event.Timely (e.under turn.service) := htimely.1
    have hfirst : owed (_ ++ (e.after turn).delayed.map Delayed.task) ~
        owed (e.delayed.map Delayed.task ++ _) := owed_step hunder
    have hrest := ih (e.after turn) htimely.2
    simp only [gather, play, List.map_append, owed_append, List.append_assoc] at hfirst hrest ⊢
    refine (hrest.append_left _).trans ?_
    rw [← List.append_assoc, ← List.append_assoc]
    exact hfirst.append_right _

/-- Whoever is answered has been handed to the service before, if nobody waited at first. -/
theorem served_of_answered {turns : List Turn} {a : Answering} (hnobody : e.delayed = [])
    (htimely : e.Timely turns) (ha : a ∈ e.gather answerings turns) :
    ∃ s ∈ e.gather servings turns, s.task = a.toTask := by
  have hmade : a.toTask.isOwed = true := by
    obtain ⟨before, turn, after, -, hturn⟩ := mem_gather ha
    have hmade := made_answerings turn.event a hturn
    unfold Made at hmade
    unfold Task.isOwed
    split
    · next hhold =>
      rw [hhold] at hmade
      exact absurd hmade id
    · rfl
  have howed : a.toTask ∈ owed ((e.gather answerings turns).map (·.toTask) ++
      (e.play turns).delayed.map Delayed.task) :=
    List.mem_filter.2 ⟨List.mem_append_left _ (List.mem_map_of_mem ha), hmade⟩
  have hserved := ((owed_play turns e htimely).mem_iff).1 howed
  rw [hnobody] at hserved
  exact List.mem_map.1 (List.mem_filter.1 hserved).1

/-! ## Waits that are over -/

end Engine

end Coap
