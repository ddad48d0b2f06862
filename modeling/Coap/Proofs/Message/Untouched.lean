/-
# Options that edits leave alone

An edit is meant for one option, and whether it succeeds or not, all other options keep their
values.  So does every option when the payload is changed.
-/
import Coap.Observe.Representation
import Coap.Proofs.Message.Editing

namespace Coap

/-- A number is there if it has values. -/
theorem Options.has_eq (o : Options) (n : OptionNumber) : o.has n = !(o.values n).isEmpty := by
  rw [Bool.eq_iff_iff]
  simp [values, has, List.filter_eq_nil_iff]

namespace Message

/-- An option has the same values in both messages. -/
def SameValues (n : OptionNumber) (m m' : Message) : Prop :=
  m'.options.values n = m.options.values n

namespace SameValues

variable {n k : OptionNumber} {m m' m'' : Message}

/-- A message has the values that it has. -/
theorem refl (m : Message) : SameValues n m m := rfl

/-- Values that are the same as those of a third one are the same. -/
theorem trans (h : SameValues n m m') (h' : SameValues n m' m'') : SameValues n m m'' :=
  Eq.trans h' h

/-- A number that is read from them is the same. -/
theorem unsigned?_eq (h : SameValues n m m') : m'.unsigned? n = m.unsigned? n := by
  unfold unsigned? Options.first?
  rw [h]

/-- Whether there are values does not change. -/
theorem has_eq (h : SameValues n m m') : m'.options.has n = m.options.has n := by
  rw [Options.has_eq, Options.has_eq, h]

/-- The number of a notification is one of its values. -/
theorem observed?_eq (h : SameValues .observe m m') : m'.observed? = m.observed? := by
  rw [observed?, observed?, h.unsigned?_eq]

/-! ## Single edits -/

/-- The payload is no value of an option. -/
theorem setPayload (m : Message) (payload : Bytes) :
    SameValues n m (m.setPayload payload).message := by
  unfold Message.setPayload
  split <;> rfl

/-- Values of another number may be added. -/
theorem addOption (m : Message) (v : OptionValue) (hk : k ≠ n) :
    SameValues n m (m.addOption k v).message := by
  unfold Message.addOption
  split
  · exact refl m
  · split
    · exact refl m
    · split
      · exact refl m
      · show (m.options.add k v).values n = _
        rw [Options.values_add, if_neg hk, List.append_nil]

/-- Values of another number may be removed. -/
theorem removeOption (m : Message) (hk : k ≠ n) : SameValues n m (m.removeOption k) := by
  show (m.options.remove k).values n = _
  rw [Options.values_remove, if_neg hk]

/-- Values of another number may be set. -/
theorem setOption (m : Message) (v : OptionValue) (hk : k ≠ n) :
    SameValues n m (m.setOption k v).message := by
  unfold Message.setOption
  simp only
  split
  · exact (removeOption m hk).trans (addOption _ v hk)
  · exact refl m

/-- Another number may be set to a number. -/
theorem setUnsigned (m : Message) (v : UInt32) (hk : k ≠ n) :
    SameValues n m (m.setUnsigned k v).message :=
  setOption m _ hk

/-- Edits may follow each other. -/
theorem andThen {e : Edit} {f : Message → Edit} (he : SameValues n m e.message)
    (hf : ∀ m, SameValues n m (f m).message) : SameValues n m (e.andThen f).message := by
  unfold Edit.andThen
  split
  · exact he.trans (hf _)
  · exact he

/-! ## Representations -/

/-- Validators have numbers of their own. -/
theorem writeValidators (r : Representation) (m : Message) (hetag : .etag ≠ n)
    (hmaxAge : .maxAge ≠ n) : SameValues n m (r.writeValidators m).message := by
  unfold Representation.writeValidators
  refine andThen ?_ fun m => ?_
  · unfold Representation.writeEtag
    split
    · exact addOption m _ hetag
    · exact refl m
  · unfold Representation.writeMaxAge
    split
    · split
      · exact refl m
      · exact setUnsigned m _ hmaxAge
    · exact refl m

/-- A representation has three numbers of its own. -/
theorem write (r : Representation) (m : Message) (hetag : .etag ≠ n) (hmaxAge : .maxAge ≠ n)
    (hformat : .contentFormat ≠ n) : SameValues n m (r.write m).message := by
  unfold Representation.write
  refine andThen (andThen (writeValidators r m hetag hmaxAge) fun m => ?_) fun m => setPayload m _
  unfold Representation.writeContentFormat
  split
  · exact setUnsigned m _ hformat
  · exact refl m

end SameValues

end Message

end Coap
