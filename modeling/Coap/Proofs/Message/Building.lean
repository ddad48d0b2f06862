/-
# Messages that can be built

A message is made by one of a few constructors and then changed by calls, any number of them
and in any order; a call that is refused leaves something behind too.  `Built` says which
messages come about in this way, and `Message.WellFormed` what they have in common: an empty
message is bare, every value passes the check of its option, and an option that may occur
only once does.
-/
import Coap.Observe.Representation
import Coap.Service.Failure
import Mathlib.Data.List.Perm.Basic

namespace Coap

/-! ## Constructors and changes -/

/-- A call that changes a message. -/
inductive Change
  | setType (type : MessageType)
  | setCode (code : Code)
  | setId (id : MessageId)
  | setToken (token : Token)
  | setPayload (payload : Bytes)
  | takePayload
  | addOption (n : OptionNumber) (v : OptionValue)
  | setOption (n : OptionNumber) (v : OptionValue)
  | removeOption (n : OptionNumber)
  | setUriPath (path : String)
  | addEtag (etag : Bytes)
  | setContentFormat (format : UInt16)
  | setObserve (s : SequenceNumber)
  | setMaxAge (seconds : UInt32)
  | setBlock1 (b : Block)
  | setBlock2 (b : Block)
  | setSize1 (size : UInt32)
  | setSize2 (size : UInt32)
  | write (r : Representation)
  | writeValidators (r : Representation)

/-- What such a call makes of a message, and whether it is refused. -/
def Change.run (m : Message) : Change → Edit
  | setType type => ⟨{ m with type }, none⟩
  | setCode code => ⟨m.setCode code, none⟩
  | setId id => ⟨{ m with id }, none⟩
  | setToken token => m.setToken token
  | setPayload payload => m.setPayload payload
  | takePayload => ⟨{ m with payload := [] }, none⟩
  | addOption n v => m.addOption n v
  | setOption n v => m.setOption n v
  | removeOption n => ⟨m.removeOption n, none⟩
  | setUriPath path => m.setUriPath path
  | addEtag etag => m.addEtag etag
  | setContentFormat format => m.setContentFormat format
  | setObserve s => m.setObserve s
  | setMaxAge seconds => m.setMaxAge seconds
  | setBlock1 b => m.setBlock1 b
  | setBlock2 b => m.setBlock2 b
  | setSize1 size => m.setSize1 size
  | setSize2 size => m.setSize2 size
  | write r => r.write m
  | writeValidators r => r.writeValidators m

/-- The messages that can be built.  A refused call counts with the message it leaves. -/
inductive Built : Message → Prop
  | new (type : MessageType) (code : Code) (id : MessageId) : Built { type, code, id }
  | request (type : MessageType) (method : Method) : Built (.request type method)
  | response (type : MessageType) (status : Status) : Built (.response type status)
  | bare (type : MessageType) (id : MessageId) : Built (.bare type id)
  | ping (id : MessageId) : Built (.ping id)
  | emptyAck (id : MessageId) : Built (.emptyAck id)
  | resetOf (id : MessageId) : Built (.resetOf id)
  | replyTo (m : Message) (status : Status) : Built (m.replyTo status)
  | failure (f : Failure) (m : Message) : Built (f.respond m)
  | change {m : Message} (h : Built m) (c : Change) : Built (c.run m).message

/-! ## Well-formed messages -/

/-- What holds of every message that can be built. -/
structure Message.WellFormed (m : Message) : Prop where
  bare : m.isEmpty → m.token = .empty ∧ m.options = .empty ∧ m.payload = []
  valid : ∀ x ∈ m.options.entries, x.value.validateFor x.number = .ok ()
  single : m.options.entries.Pairwise fun a b => a.number = b.number → a.number.isRepeatable

/-- An entry is put somewhere among the others. -/
theorem Options.place_perm (x : OptionEntry) (l : List OptionEntry) :
    (Options.place x l).Perm (x :: l) := by
  induction l with
  | nil => exact .refl _
  | cons y rest ih =>
    rw [Options.place]
    split
    · exact .refl _
    · exact (ih.cons y).trans (.swap x y rest)

/-- A token without bytes is the empty one. -/
theorem Token.eq_empty {t : Token} (h : t.isEmpty) : t = .empty := by
  obtain ⟨bytes, hlen⟩ := t
  obtain rfl : bytes = [] := List.isEmpty_iff.mp h
  rfl

namespace Message.WellFormed

variable {m m' : Message}

/-- A message without options is well formed if it is bare when it is empty. -/
theorem of_no_options (hoptions : m.options = .empty)
    (hbare : m.isEmpty → m.token = .empty ∧ m.payload = []) : m.WellFormed where
  bare := fun h => ⟨(hbare h).1, hoptions, (hbare h).2⟩
  valid := by simp [hoptions, Options.empty]
  single := by simp [hoptions, Options.empty]

/-- A change outside code and options has to leave an empty message bare, and no more. -/
theorem of_same_options (h : m.WellFormed) (hcode : m'.code = m.code)
    (hoptions : m'.options = m.options)
    (hbare : m.isEmpty → m'.token = .empty ∧ m'.payload = []) : m'.WellFormed where
  bare := by
    intro he
    rw [isEmpty, hcode] at he
    exact ⟨(hbare he).1, hoptions.trans (h.bare he).2.1, (hbare he).2⟩
  valid := hoptions ▸ h.valid
  single := hoptions ▸ h.single

theorem not_isEmpty_response (status : Status) : ¬ (Code.response status).isEmpty := by
  cases status <;> decide

/-- A reply is well formed. -/
theorem replyTo (m : Message) (status : Status) : (m.replyTo status).WellFormed := by
  have hcode := not_isEmpty_response status
  rw [Message.replyTo]
  split <;> exact of_no_options rfl fun h => absurd h hcode

/-! ### One lemma for each kind of change -/

/-- A message with the empty code is left without anything else. -/
theorem setCode (h : m.WellFormed) (code : Code) : (m.setCode code).WellFormed := by
  rw [Message.setCode]
  split
  · exact of_no_options rfl fun _ => ⟨rfl, rfl⟩
  · next hcode =>
    exact ⟨fun he => absurd he hcode, h.valid, h.single⟩

/-- A token is refused by the empty message. -/
theorem setToken (h : m.WellFormed) (token : Token) : (m.setToken token).message.WellFormed := by
  rw [Message.setToken]
  split
  · exact h
  · next hnot =>
    refine h.of_same_options rfl rfl fun he => ⟨Token.eq_empty ?_, (h.bare he).2.2⟩
    by_contra hne
    exact hnot ⟨he, by simpa using hne⟩

/-- A payload is refused by the empty message. -/
theorem setPayload (h : m.WellFormed) (payload : Bytes) :
    (m.setPayload payload).message.WellFormed := by
  rw [Message.setPayload]
  split
  · exact h
  · next hnot =>
    refine h.of_same_options rfl rfl fun he => ⟨(h.bare he).1, List.isEmpty_iff.mp ?_⟩
    by_contra hne
    exact hnot ⟨he, by simpa using hne⟩

/-- Options may always be removed. -/
theorem removeOption (h : m.WellFormed) (n : OptionNumber) : (m.removeOption n).WellFormed where
  bare := by
    intro he
    obtain ⟨ht, ho, hp⟩ := h.bare he
    refine ⟨ht, ?_, hp⟩
    simp [Message.removeOption, Options.remove, ho, Options.empty]
  valid := fun x hx => h.valid x (List.mem_of_mem_filter hx)
  single := h.single.filter _

/-- A value that is added passes the check, and is the only one if there may be only one. -/
theorem addOption (h : m.WellFormed) (n : OptionNumber) (v : OptionValue) :
    (m.addOption n v).message.WellFormed := by
  rw [Message.addOption]
  split
  · exact h
  · next hempty =>
    split
    · exact h
    · next hvalid =>
      split
      · exact h
      · next hsingle =>
        -- where the entry is put does not matter for any of the three properties
        refine ⟨fun he => absurd he hempty, fun x hx => ?_, ?_⟩
        · rcases Options.mem_place.mp hx with rfl | hx
          · exact hvalid
          · exact h.valid x hx
        · refine ((Options.place_perm ⟨n, v⟩ m.options.entries).pairwise_iff
            fun hab heq => heq ▸ hab heq.symm).mpr ?_
          refine List.pairwise_cons.mpr ⟨fun x hx heq => ?_, h.single⟩
          by_contra hrep
          refine hsingle ⟨by simpa using hrep, ?_⟩
          exact List.any_eq_true.mpr ⟨x, hx, by simp [← heq]⟩

/-- What is set in their place is checked first. -/
theorem setOption (h : m.WellFormed) (n : OptionNumber) (v : OptionValue) :
    (m.setOption n v).message.WellFormed := by
  rw [Message.setOption]
  split
  · exact (h.removeOption n).addOption n v
  · exact h

/-- Edits in a row keep what each of them keeps. -/
theorem andThen {e : Edit} {f : Message → Edit} (he : e.message.WellFormed)
    (hf : ∀ m : Message, m.WellFormed → (f m).message.WellFormed) :
    (e.andThen f).message.WellFormed := by
  rw [Edit.andThen]
  split
  · exact hf _ he
  · exact he

theorem addOptions (h : m.WellFormed) (l : List (OptionNumber × OptionValue)) :
    (m.addOptions l).message.WellFormed := by
  induction l generalizing m with
  | nil => exact h
  | cons x rest ih => exact (h.addOption x.1 x.2).andThen fun _ => ih

theorem writeValidators (h : m.WellFormed) (r : Representation) :
    (r.writeValidators m).message.WellFormed := by
  refine andThen ?_ fun m hm => ?_
  · rw [Representation.writeEtag]
    split
    · exact h.addOption _ _
    · exact h
  · rw [Representation.writeMaxAge]
    split
    · split
      · exact hm
      · exact hm.setOption _ _
    · exact hm

/-- A representation is written by such changes. -/
theorem write (h : m.WellFormed) (r : Representation) : (r.write m).message.WellFormed := by
  refine andThen (andThen (h.writeValidators r) fun m hm => ?_) fun m hm => hm.setPayload _
  rw [Representation.writeContentFormat]
  split
  · exact hm.setOption _ _
  · exact hm

/-- **No change spoils a message**, whether it is carried out or refused. -/
theorem change (h : m.WellFormed) (c : Change) : (c.run m).message.WellFormed := by
  cases c with
  | setType type => exact h.of_same_options rfl rfl fun he => ⟨(h.bare he).1, (h.bare he).2.2⟩
  | setCode code => exact h.setCode code
  | setId id => exact h.of_same_options rfl rfl fun he => ⟨(h.bare he).1, (h.bare he).2.2⟩
  | setToken token => exact h.setToken token
  | setPayload payload => exact h.setPayload payload
  | takePayload => exact h.of_same_options rfl rfl fun he => ⟨(h.bare he).1, rfl⟩
  | addOption n v => exact h.addOption n v
  | setOption n v => exact h.setOption n v
  | removeOption n => exact h.removeOption n
  | setUriPath path => exact (h.removeOption _).addOptions _
  | addEtag etag => exact h.addOption _ _
  | setContentFormat format => exact h.setOption _ _
  | setObserve s => exact h.setOption _ _
  | setMaxAge seconds => exact h.setOption _ _
  | setBlock1 b => exact h.setOption _ _
  | setBlock2 b => exact h.setOption _ _
  | setSize1 size => exact h.setOption _ _
  | setSize2 size => exact h.setOption _ _
  | write r => exact h.write r
  | writeValidators r => exact h.writeValidators r

end Message.WellFormed

/-- Every message that can be built is well formed. -/
theorem Built.wellFormed {m : Message} (h : Built m) : m.WellFormed := by
  induction h with
  | failure f m =>
    rw [Failure.respond]
    split
    · exact .replyTo m _
    · exact ((Message.WellFormed.replyTo m _).setOption _ _).setPayload _
  | replyTo m status => exact .replyTo m status
  | change _ c ih => exact ih.change c
  | _ => exact .of_no_options rfl fun _ => ⟨rfl, rfl⟩

end Coap
