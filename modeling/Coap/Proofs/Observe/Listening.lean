/-
# What a listener hears

Those who listen to a resource come and go: they are registered and unregistered, close their
inboxes, and are dropped by the next publication that finds an inbox closed.  Through all of this a
listener is told exactly what is published from its registration until it is unregistered or closed.

* `since` : the part of a history that matters to one listener;
* `Reflects` : what the listeners are after a history, one lemma for an act and one for all of them;
* `arrivals_eq`, `arrivals_eq_taken_append` : what a listener is told, and what becomes of it.
-/
import Coap.Proofs.Observe.Terms
import Mathlib.Data.List.Induction
import Mathlib.Data.List.TakeWhile

namespace Coap.Listeners

/-! ## Histories -/

/-- What happens to the listeners of a resource.  A listener whose inbox was closed before it was
registered is one that closes it right afterwards. -/
inductive Act
  | listen
  | unregister (id : ListenerId)
  | close (id : ListenerId)
  | publish (event : ResourceEvent)
  | take (id : ListenerId)
deriving DecidableEq

/-- The event that is published. -/
def Act.event? : Act → Option ResourceEvent
  | publish event => some event
  | _ => none

/-- Only what is published is an event. -/
theorem Act.eq_publish {act : Act} {event : ResourceEvent} (h : act.event? = some event) :
    act = .publish event := by
  cases act with
  | publish other => rw [Option.some.inj h]
  | _ => cases h

/-- The listeners after an act. -/
def step (l : Listeners) : Act → Listeners
  | .listen => l.listen.2
  | .unregister id => l.unregister id
  | .close id => l.close id
  | .publish event => l.publish event
  | .take id => (l.drain id).2

/-- The listeners after a history that starts without any. -/
def run (acts : List Act) : Listeners := acts.foldl step empty

/-- All that is seen of the acts of a history, one after the other. -/
def seen {α : Type} (f : Listeners → Act → List α) : Listeners → List Act → List α
  | _, [] => []
  | l, act :: rest => f l act ++ seen f (l.step act) rest

/-- The numbers that were given to listeners. -/
def issued (acts : List Act) : List ListenerId :=
  seen (fun l act => if act = .listen then [l.listen.1] else []) empty acts

/-- What an act puts into the inbox of a listener. -/
def arrival (id : ListenerId) (l : Listeners) (act : Act) : List ResourceEvent :=
  ((l.step act).inbox id).drop (l.inbox id).length

/-- What was put into the inbox of a listener. -/
def arrivals (acts : List Act) (id : ListenerId) : List ResourceEvent :=
  seen (arrival id) empty acts

/-- What a listener takes out of its inbox. -/
def takeout (id : ListenerId) (l : Listeners) (act : Act) : List ResourceEvent :=
  if act = .take id then (l.drain id).1 else []

/-- What a listener took out of its inbox. -/
def taken (acts : List Act) (id : ListenerId) : List ResourceEvent :=
  seen (takeout id) empty acts

/-- What is in the inbox of a listener when it is closed. -/
def loss (id : ListenerId) (l : Listeners) (act : Act) : List ResourceEvent :=
  if act = .close id then l.inbox id else []

/-- What was in the inbox of a listener when it was closed. -/
def lost (acts : List Act) (id : ListenerId) : List ResourceEvent :=
  seen (loss id) empty acts

section

variable {acts : List Act} {act : Act} {id : ListenerId}

/-- The last act of a history is a step after the others. -/
theorem run_concat (acts : List Act) (act : Act) : run (acts ++ [act]) = (run acts).step act :=
  List.foldl_append

/-- What is seen of a history is seen of its acts one by one. -/
theorem seen_concat {α : Type} (f : Listeners → Act → List α) (l : Listeners) (acts : List Act)
    (act : Act) : seen f l (acts ++ [act]) = seen f l acts ++ f (acts.foldl step l) act := by
  induction acts generalizing l with
  | nil => simp [seen]
  | cons first rest ih =>
    rw [List.cons_append, seen, seen, ih, List.append_assoc]
    rfl

/-! ## The part of a history that matters to a listener -/

/-- The number of registrations. -/
def listens (acts : List Act) : Nat := acts.count .listen

/-- What happened since a listener was registered.  The number of a listener is that of the
registrations before its own. -/
def since : ListenerId → List Act → List Act
  | _, [] => []
  | 0, .listen :: rest => rest
  | id + 1, .listen :: rest => since id rest
  | id, _ :: rest => since id rest

/-- The events that were published. -/
def published (acts : List Act) : List ResourceEvent := acts.filterMap Act.event?

/-- What was published until a listener was unregistered or closed. -/
def told (acts : List Act) (id : ListenerId) : List ResourceEvent :=
  published ((since id acts).takeWhile fun act => act ≠ .unregister id ∧ act ≠ .close id)

/-- A listener was unregistered, or it was closed before a later publication. -/
def Dropped (acts : List Act) (id : ListenerId) : Prop :=
  .unregister id ∈ since id acts ∨
    published ((since id acts).dropWhile (· ≠ .close id)) ≠ []

/-- Whether a listener was dropped can be told from the history. -/
instance : DecidablePred (Dropped acts) := fun _ => inferInstanceAs (Decidable (_ ∨ _))

/-- A listener was registered, and neither unregistered nor closed. -/
structure Listening (acts : List Act) (id : ListenerId) : Prop where
  registered : id < listens acts
  kept : .unregister id ∉ since id acts
  isOpen : .close id ∉ since id acts

/-- Every act of listening adds a listener. -/
theorem listens_concat (acts : List Act) (act : Act) :
    listens (acts ++ [act]) = listens acts + if act = .listen then 1 else 0 := by
  rw [listens, List.count_append, ← listens, List.count_singleton]
  simp only [beq_iff_eq]

/-- Listeners are counted from either end of a history. -/
theorem listens_cons (act : Act) (rest : List Act) :
    listens (act :: rest) = listens rest + if act = .listen then 1 else 0 := by
  rw [listens, List.count_cons, ← listens]
  simp only [beq_iff_eq]

/-- A listener sees the acts after it was opened. -/
theorem since_concat (id : ListenerId) (acts : List Act) (act : Act) :
    since id (acts ++ [act]) = if id < listens acts then since id acts ++ [act] else [] := by
  induction acts generalizing id with
  | nil => cases act <;> cases id <;> rfl
  | cons first rest ih =>
    rw [List.cons_append, listens_cons]
    cases first with
    | listen =>
      cases id with
      | zero => simp [since]
      | succ id => simp [since, ih]
    | _ => simp [since, ih]

/-- A listener that was not opened yet has seen nothing. -/
theorem since_eq_nil (h : ¬ id < listens acts) : since id acts = [] := by
  induction acts using List.reverseRecOn with
  | nil => rfl
  | append_singleton acts act ih =>
    rw [listens_concat] at h
    rw [since_concat, if_neg fun hlt => h (Nat.lt_add_right _ hlt)]

/-- Events are published one by one. -/
theorem published_concat (acts : List Act) (act : Act) :
    published (acts ++ [act]) = published acts ++ act.event?.toList := by
  rw [published, List.filterMap_append, ← published]
  cases h : act.event? <;> simp [h]

/-- Where an inbox is not closed, nothing is dropped up to its closing. -/
theorem dropWhile_eq_nil (h : .close id ∉ acts) : acts.dropWhile (· ≠ .close id) = [] := by
  rw [List.dropWhile_eq_nil_iff]
  intro x hx
  simpa using fun heq : x = .close id => h (heq ▸ hx)

/-- There is a publication after the first closing exactly if there was one before, or it is the
last act and there was a closing. -/
theorem published_dropWhile_concat (acts : List Act) (act : Act) :
    published ((acts ++ [act]).dropWhile (· ≠ .close id)) ≠ [] ↔
      published (acts.dropWhile (· ≠ .close id)) ≠ [] ∨ .close id ∈ acts ∧ act.event?.isSome := by
  induction acts with
  | nil =>
    refine iff_of_false (fun h => h ?_) (by simp [published])
    by_cases hact : act = .close id <;> simp [published, hact, Act.event?]
  | cons first rest ih =>
    by_cases hfirst : first = .close id
    · subst hfirst
      have hwhole (l : List Act) : (Act.close id :: l).dropWhile (· ≠ .close id) = .close id :: l :=
        List.dropWhile_cons_of_neg (by simp)
      rw [List.cons_append, hwhole, hwhole, ← List.cons_append, published_concat]
      cases act.event? <;> simp
    · have hskip (l : List Act) :
          (first :: l).dropWhile (· ≠ .close id) = l.dropWhile (· ≠ .close id) :=
        List.dropWhile_cons_of_pos (by simpa using hfirst)
      rw [List.cons_append, hskip, hskip, ih]
      simp [Ne.symm hfirst]

/-- A listener is dropped when it is unregistered, or when an event finds its inbox closed. -/
theorem dropped_concat (h : id < listens acts) (act : Act) :
    Dropped (acts ++ [act]) id ↔ Dropped acts id ∨ act = .unregister id ∨
      .close id ∈ since id acts ∧ act.event?.isSome := by
  rw [Dropped, since_concat, if_pos h, published_dropWhile_concat, List.mem_append,
    List.mem_singleton, Dropped]
  tauto

/-- While it listens, a listener is told every event. -/
theorem Listening.told_concat (h : Listening acts id) (act : Act) :
    told (acts ++ [act]) id = told acts id ++ act.event?.toList := by
  have hall : ∀ x ∈ since id acts, x ≠ .unregister id ∧ x ≠ .close id := fun x hx =>
    ⟨fun heq => h.kept (heq ▸ hx), fun heq => h.isOpen (heq ▸ hx)⟩
  have hwhole : (since id acts).takeWhile (fun x => x ≠ .unregister id ∧ x ≠ .close id) =
      since id acts := by
    rw [List.takeWhile_eq_self_iff]
    simpa using hall
  rw [told, told, since_concat, if_pos h.registered, hwhole,
    List.takeWhile_append_of_pos (by simpa using hall)]
  by_cases hact : act ≠ .unregister id ∧ act ≠ .close id
  · rw [List.takeWhile_cons_of_pos (by simpa using hact)]
    exact published_concat ..
  · -- the act ends the listening, and publishes nothing
    rw [List.takeWhile_cons_of_neg (by simpa using hact), List.append_nil]
    have hnone : act.event? = none := by
      cases act with
      | publish event => exact absurd ⟨nofun, nofun⟩ hact
      | _ => rfl
    rw [hnone, Option.toList_none, List.append_nil]

/-- A listener is told nothing when it does not listen. -/
theorem told_concat_of_not_listening (h : ¬ Listening acts id) (act : Act) :
    told (acts ++ [act]) id = told acts id := by
  rw [told, told, since_concat]
  split
  · next hid =>
    have hends : ((since id acts).takeWhile fun x => x ≠ .unregister id ∧ x ≠ .close id).length ≠
        (since id acts).length := by
      intro hlength
      have hwhole := (List.takeWhile_prefix fun x : Act =>
        decide (x ≠ .unregister id ∧ x ≠ .close id)).eq_of_length hlength
      rw [List.takeWhile_eq_self_iff] at hwhole
      refine h ⟨hid, fun hmem => ?_, fun hmem => ?_⟩
      · simpa using hwhole _ hmem
      · simpa using hwhole _ hmem
    rw [List.takeWhile_append, if_neg hends]
  · next hid => rw [since_eq_nil hid]

end

/-! ## What the listeners are after a history -/

variable {l : Listeners} {acts : List Act} {act : Act} {id : ListenerId}

/-- IDs are counted by the acts of listening. -/
theorem nextId_step (l : Listeners) (act : Act) :
    (l.step act).nextId = l.nextId + if act = .listen then 1 else 0 := by
  cases act <;> rfl

/-- Inboxes are opened by listening, and closed by closing. -/
theorem contains_inboxes_step (l : Listeners) (act : Act) (id : ListenerId) :
    (l.step act).inboxes.contains id ↔
      l.inboxes.contains id ∧ act ≠ .close id ∨ id = l.nextId ∧ act = .listen := by
  cases act with
  | listen =>
    rw [step, listen, Table.contains, Table.get?_insert]
    split
    · next hid => simp [hid]
    · next hid => simp [Ne.symm hid, Table.contains]
  | unregister other => simp [step, unregister]
  | close other =>
    rw [step, close, Table.contains, Table.get?_erase]
    split
    · next hid => simp [hid]
    · next hid => simp [hid, Table.contains]
  | publish event => simp [step, publish, Table.contains, Table.get?_mapValues]
  | take other =>
    rw [step, drain, Table.contains, Table.get?_modify]
    split <;> simp [Table.contains]

/-- What the listeners are after a history. -/
structure Reflects (acts : List Act) (l : Listeners) : Prop where
  nextId : l.nextId = listens acts
  registered : l.registered = (List.range (listens acts)).filter (¬ Dropped acts ·)
  isOpen : ∀ id, l.inboxes.contains id ↔ id < listens acts ∧ .close id ∉ since id acts

/-- An inbox is open from the act of listening until it is closed. -/
theorem isOpen_concat (acts : List Act) (act : Act) (id : ListenerId) :
    (id < listens (acts ++ [act]) ∧ .close id ∉ since id (acts ++ [act])) ↔
      (id < listens acts ∧ .close id ∉ since id acts) ∧ act ≠ .close id ∨
        id = listens acts ∧ act = .listen := by
  rw [listens_concat, since_concat]
  by_cases hid : id < listens acts
  · simp only [hid, Nat.lt_add_right, true_and, if_true, List.mem_append, List.mem_singleton,
      not_or, hid.ne, false_and, or_false, ne_eq, eq_comm]
  · by_cases hact : act = .listen
    · have hnew : id < listens acts + 1 ↔ id = listens acts :=
        Nat.lt_succ_iff_lt_or_eq.trans (or_iff_right hid)
      simp [hid, hact, hnew]
    · simp [hid, hact]

/-- A listener stays registered unless it is unregistered or found closed. -/
theorem filter_dropped_concat (acts : List Act) (act : Act) :
    (List.range (listens (acts ++ [act]))).filter (¬ Dropped (acts ++ [act]) ·) =
      (((List.range (listens acts)).filter (¬ Dropped acts ·)).filter fun id =>
        act ≠ .unregister id ∧ ¬ (.close id ∈ since id acts ∧ act.event?.isSome)) ++
        if act = .listen then [listens acts] else [] := by
  have hold : (List.range (listens acts)).filter (¬ Dropped (acts ++ [act]) ·) =
      ((List.range (listens acts)).filter (¬ Dropped acts ·)).filter fun id =>
        act ≠ .unregister id ∧ ¬ (.close id ∈ since id acts ∧ act.event?.isSome) := by
    rw [List.filter_filter]
    refine List.filter_congr fun id hid => ?_
    rw [← Bool.decide_and, decide_eq_decide, dropped_concat (List.mem_range.mp hid)]
    tauto
  rw [listens_concat]
  split
  · have hnew : ¬ Dropped (acts ++ [act]) (listens acts) := by
      rw [Dropped, since_concat, if_neg (Nat.lt_irrefl _)]
      simp [published]
    rw [List.range_succ, List.filter_append, hold]
    simp [hnew]
  · rw [Nat.add_zero, hold, List.append_nil]

namespace Reflects

/-- At the start there are no listeners. -/
theorem empty : Reflects [] empty :=
  ⟨rfl, rfl, fun _ => by simp [Listeners.empty, Table.contains, listens]⟩

/-- A step adds the listener that is opened, and takes those away that are dropped. -/
theorem registered_step (h : Reflects acts l) (act : Act) :
    (l.step act).registered = (l.registered.filter fun id =>
      act ≠ .unregister id ∧ ¬ (.close id ∈ since id acts ∧ act.event?.isSome)) ++
      if act = .listen then [l.nextId] else [] := by
  cases act with
  | publish event =>
    rw [Listeners.step, publish, if_neg nofun, List.append_nil]
    refine List.filter_congr fun id hid => ?_
    have hlt : id < listens acts := by
      rw [h.registered] at hid
      exact List.mem_range.mp (List.mem_filter.mp hid).1
    rw [Bool.eq_iff_iff, h.isOpen]
    simp [hlt, Act.event?]
  | unregister other =>
    rw [Listeners.step, unregister, if_neg nofun, List.append_nil]
    refine List.filter_congr fun id _ => ?_
    rw [Bool.eq_iff_iff]
    simp [Act.event?, @eq_comm _ id other]
  | listen =>
    rw [List.filter_eq_self.mpr (by simp [Act.event?])]
    rfl
  | _ =>
    rw [List.filter_eq_self.mpr (by simp [Act.event?])]
    exact (List.append_nil _).symm

/-- The listeners reflect a history that is one act longer. -/
theorem step (h : Reflects acts l) (act : Act) : Reflects (acts ++ [act]) (l.step act) where
  nextId := by rw [nextId_step, h.nextId, listens_concat]
  registered := by rw [h.registered_step, h.registered, h.nextId, filter_dropped_concat]
  isOpen := fun id => by rw [contains_inboxes_step, h.isOpen, h.nextId, isOpen_concat]

/-- **The listeners reflect the history.** -/
theorem run (acts : List Act) : Reflects acts (run acts) := by
  induction acts using List.reverseRecOn with
  | nil => exact empty
  | append_singleton acts act ih =>
    rw [run_concat]
    exact ih.step act

/-- An event is told to those who listen. -/
theorem listening_iff (h : Reflects acts l) (id : ListenerId) :
    Listening acts id ↔ l.registered.contains id ∧ l.inboxes.contains id := by
  rw [List.contains_iff_mem, h.registered, List.mem_filter, List.mem_range, h.isOpen,
    decide_eq_true_iff]
  constructor
  · intro hid
    refine ⟨⟨hid.registered, ?_⟩, hid.registered, hid.isOpen⟩
    rw [Dropped, dropWhile_eq_nil hid.isOpen]
    simpa [published] using hid.kept
  · rintro ⟨⟨hid, hdropped⟩, -, hopen⟩
    exact ⟨hid, fun hmem => hdropped (.inl hmem), hopen⟩

end Reflects

/-! ## What is put into an inbox and taken out of it -/

/-- An event is put into the inboxes that are open and registered. -/
theorem inbox_publish (l : Listeners) (event : ResourceEvent) (id : ListenerId) :
    (l.publish event).inbox id = l.inbox id ++
      if l.registered.contains id ∧ l.inboxes.contains id then [event] else [] := by
  rw [inbox, inbox, publish, Table.get?_mapValues, Table.contains]
  cases l.inboxes.get? id with
  | none => simp
  | some events => by_cases hid : id ∈ l.registered <;> simp [hid]

/-- Without an inbox nothing is in it. -/
theorem inbox_eq_nil (h : ¬ l.inboxes.contains id) : l.inbox id = [] := by
  rw [Table.contains, Option.not_isSome_iff_eq_none] at h
  rw [inbox, h, Option.getD_none]

/-- What arrives when something is published is the event, where there is a listener for it. -/
theorem arrival_publish (l : Listeners) (event : ResourceEvent) (id : ListenerId) :
    arrival id l (.publish event) =
      if l.registered.contains id ∧ l.inboxes.contains id then [event] else [] := by
  rw [arrival, step, inbox_publish, List.drop_left]

/-- Unless an event is published an inbox stays as it is, or is empty. -/
theorem inbox_step_of_silent (hnew : ¬ l.inboxes.contains l.nextId) (hsilent : act.event? = none)
    (id : ListenerId) :
    (l.step act).inbox id = if act = .take id ∨ act = .close id then [] else l.inbox id := by
  cases act with
  | listen =>
    rw [if_neg (by simp), step, listen, inbox, Table.get?_insert]
    split
    · next hid => rw [← hid, inbox_eq_nil hnew, Option.getD_some]
    · rw [inbox]
  | unregister other => rfl
  | close other =>
    rw [step, close, inbox, Table.get?_erase]
    split
    · next hid => simp [hid]
    · next hid => simp [hid, inbox]
  | publish event => cases hsilent
  | take other =>
    rw [step, drain, inbox, Table.get?_modify]
    split
    · next hid => cases l.inboxes.get? id <;> simp [hid]
    · next hid => simp [hid, inbox]

/-- When nothing is published, nothing arrives. -/
theorem arrival_of_silent (hnew : ¬ l.inboxes.contains l.nextId) (hsilent : act.event? = none)
    (id : ListenerId) : arrival id l act = [] := by
  rw [arrival, inbox_step_of_silent hnew hsilent]
  split
  · exact List.drop_nil
  · exact List.drop_length

/-- What is in an inbox and what is put into it is taken out, stays there, or is lost when the
inbox is closed. -/
theorem inbox_append_arrival (hnew : ¬ l.inboxes.contains l.nextId) (act : Act)
    (id : ListenerId) :
    l.inbox id ++ arrival id l act =
      takeout id l act ++ (l.step act).inbox id ++ loss id l act := by
  cases hevent : act.event? with
  | none =>
    rw [arrival_of_silent hnew hevent, inbox_step_of_silent hnew hevent, List.append_nil,
      takeout, loss]
    by_cases htake : act = .take id
    · simp [htake, drain]
    · by_cases hclose : act = .close id <;> simp [htake, hclose]
  | some event =>
    obtain rfl := Act.eq_publish hevent
    rw [takeout, if_neg nofun, loss, if_neg nofun, arrival_publish, step, inbox_publish,
      List.nil_append, List.append_nil]

namespace Reflects

/-- The next ID has no inbox yet. -/
theorem not_contains_nextId (h : Reflects acts l) : ¬ l.inboxes.contains l.nextId := by
  rw [h.isOpen, h.nextId]
  exact fun hid => Nat.lt_irrefl _ hid.1

/-- To a listener that listens every event arrives. -/
theorem arrival_of_listening (h : Reflects acts l) (hid : Listening acts id) (act : Act) :
    arrival id l act = act.event?.toList := by
  cases act with
  | publish event =>
    rw [arrival_publish, if_pos ((h.listening_iff id).mp hid)]
    rfl
  | _ => exact arrival_of_silent h.not_contains_nextId rfl id

/-- To a listener that does not listen nothing arrives. -/
theorem arrival_of_not_listening (h : Reflects acts l) (hid : ¬ Listening acts id) (act : Act) :
    arrival id l act = [] := by
  cases act with
  | publish event => rw [arrival_publish, if_neg (mt (h.listening_iff id).mpr hid)]
  | _ => exact arrival_of_silent h.not_contains_nextId rfl id

end Reflects

/-! ## Whole histories -/

/-- IDs are given in order and never twice. -/
theorem issued_eq (acts : List Act) : issued acts = List.range (listens acts) := by
  induction acts using List.reverseRecOn with
  | nil => rfl
  | append_singleton acts act ih =>
    rw [issued, seen_concat, ← issued, ih, listens_concat]
    split
    · rw [List.range_succ, ← (Reflects.run acts).nextId]
      rfl
    · rw [List.append_nil, Nat.add_zero]

/-- A listener is told what is published while it listens, and nothing else. -/
theorem arrivals_eq (acts : List Act) (id : ListenerId) : arrivals acts id = told acts id := by
  induction acts using List.reverseRecOn with
  | nil => cases id <;> rfl
  | append_singleton acts act ih =>
    rw [arrivals, seen_concat, ← arrivals, ih, ← run]
    by_cases hid : Listening acts id
    · rw [hid.told_concat, (Reflects.run acts).arrival_of_listening hid]
    · rw [told_concat_of_not_listening hid, (Reflects.run acts).arrival_of_not_listening hid,
        List.append_nil]

/-- Nothing is lost in an inbox that stays open. -/
theorem lost_eq_nil (h : .close id ∉ since id acts) : lost acts id = [] := by
  induction acts using List.reverseRecOn with
  | nil => rfl
  | append_singleton acts act ih =>
    rw [lost, seen_concat, ← lost, ← run, List.append_eq_nil_iff]
    rw [since_concat] at h
    split at h
    · rw [List.mem_append, not_or] at h
      exact ⟨ih h.1, if_neg fun hact => h.2 (by simp [hact])⟩
    · next hid =>
      refine ⟨ih (by rw [since_eq_nil hid]; exact h), ?_⟩
      have hclosed : ¬ (run acts).inboxes.contains id := fun hopen =>
        hid (((Reflects.run acts).isOpen id).mp hopen).1
      rw [loss, inbox_eq_nil hclosed, ite_self]

/-- What a listener was told it has taken out in this order, or it is still in the inbox, or it was
lost when the inbox was closed. -/
theorem arrivals_eq_taken_append (acts : List Act) (id : ListenerId) :
    arrivals acts id = taken acts id ++ (run acts).inbox id ++ lost acts id := by
  induction acts using List.reverseRecOn with
  | nil => rfl
  | append_singleton acts act ih =>
    have h := Reflects.run acts
    have hstep := inbox_append_arrival h.not_contains_nextId act id
    rw [arrivals, seen_concat, ← arrivals, taken, seen_concat, ← taken, lost, seen_concat, ← lost,
      ← run, run_concat, ih]
    by_cases hopen : (run acts).inboxes.contains id
    · rw [lost_eq_nil ((h.isOpen id).mp hopen).2, List.append_nil, List.append_assoc, hstep,
        List.nil_append]
      simp only [List.append_assoc]
    · -- the inbox was never opened or is closed: nothing comes or goes
      have hsilent : arrival id (run acts) act = [] :=
        h.arrival_of_not_listening (mt (h.listening_iff id).mp fun hid => hopen hid.2) act
      rw [inbox_eq_nil hopen, hsilent, List.append_nil, eq_comm, List.append_eq_nil_iff,
        List.append_eq_nil_iff] at hstep
      obtain ⟨⟨htakeout, hinbox⟩, hloss⟩ := hstep
      rw [inbox_eq_nil hopen, hsilent, htakeout, hinbox, hloss]
      simp only [List.append_nil]

/-- Those who are counted and those who were dropped are all listeners there have been. -/
theorem count_add_dropped (acts : List Act) :
    (run acts).count + ((List.range (listens acts)).filter (Dropped acts ·)).length =
      listens acts := by
  have hparts := List.length_eq_countP_add_countP (fun id => decide (Dropped acts id))
    (l := List.range (listens acts))
  simp only [List.length_range, List.countP_eq_length_filter, decide_eq_true_eq] at hparts
  rw [count, (Reflects.run acts).registered, Nat.add_comm]
  exact hparts.symm

/-- **A listener hears what is published while it listens.**  Whatever happens to the listeners of a
resource, no number is given twice.  A listener is told exactly the events that are published from
its registration until it is unregistered or closed, each once and in this order; they are what it
takes out and what is left in its inbox, unless closing it lost some.  Registered are all that ever
were, less those that were unregistered or closed before a later publication. -/
theorem heard_while_listening (acts : List Act) :
    (issued acts = List.range (listens acts) ∧ (issued acts).Nodup) ∧
    (∀ id, arrivals acts id = told acts id ∧
      arrivals acts id = taken acts id ++ (run acts).inbox id ++ lost acts id ∧
      (.close id ∉ since id acts → lost acts id = [])) ∧
    (run acts).count + ((List.range (listens acts)).filter (Dropped acts ·)).length =
      listens acts := by
  refine ⟨⟨issued_eq acts, ?_⟩, fun id => ⟨arrivals_eq acts id, arrivals_eq_taken_append acts id,
    lost_eq_nil⟩, count_add_dropped acts⟩
  rw [issued_eq]
  exact List.nodup_range

/-- Of three listeners the second is closed and the third is unregistered before an event is
published, and a fourth comes too late for it. -/
theorem heard_while_listening_of_four :
    let acts : List Act := [.listen, .listen, .listen, .close 1, .unregister 2,
      .publish (.changed none), .take 0, .listen, .publish .removed]
    issued acts = [0, 1, 2, 3] ∧
      arrivals acts 0 = [.changed none, .removed] ∧ arrivals acts 1 = [] ∧ arrivals acts 2 = [] ∧
      arrivals acts 3 = [.removed] ∧
      taken acts 0 ++ (run acts).inbox 0 = [.changed none, .removed] ∧ (run acts).count = 2 := by
  intro acts
  obtain ⟨⟨hissued, -⟩, hheard, hcount⟩ := heard_while_listening acts
  have harrivals (id : ListenerId) : arrivals acts id = told acts id := (hheard id).1
  have htold : told acts 0 = [.changed none, .removed] := by decide
  refine ⟨hissued, (harrivals 0).trans htold, harrivals 1, harrivals 2, harrivals 3, ?_, ?_⟩
  · obtain ⟨harrived, hparts, hlost⟩ := hheard 0
    rw [hlost (by decide), List.append_nil, harrived, htold] at hparts
    exact hparts.symm
  · have hdropped : ((List.range (listens acts)).filter (Dropped acts ·)).length = 2 := by decide
    rw [hdropped] at hcount
    exact Nat.add_right_cancel (hcount : _ = 2 + 2)

end Coap.Listeners
