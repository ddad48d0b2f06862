/-
# Refused changes

A change that is refused leaves the message as it was.  A single value is checked before it is
written, and of the calls that write several things in a row all but one check what can be
refused first.  The exception is the path: its old segments are dropped before the new ones are
looked at, and the new ones are added one by one until one of them is too long, so that a refused
path leaves its beginning behind.
-/
import Coap.Proofs.Message.Building
import Coap.Proofs.Observe.Shown

namespace Coap

/-! ## Options by their values -/

namespace Options

variable {o o' : Options} {n : OptionNumber}

end Options

/-! ## Edits that are refused as a whole -/

/-- The edit leaves the message as it was, unless it is carried out. -/
def Edit.Whole (m : Message) (e : Edit) : Prop := e.fault?.isSome → e.message = m

namespace Edit.Whole

variable {m : Message} {e : Edit} {f : Message → Edit} {n : OptionNumber} {v : OptionValue}

/-- An edit without a fault is whole. -/
theorem done (m m' : Message) : Whole m ⟨m', none⟩ := nofun

/-- An edit that changes nothing is whole. -/
theorem refused (m : Message) (fault? : Option BuildFault) : Whole m ⟨m, fault?⟩ := fun _ => rfl

/-- Of two edits in a row only the first may be refused. -/
theorem andThen_done (he : Whole m e) (hf : e.fault? = none → (f e.message).fault? = none) :
    Whole m (e.andThen f) := by
  unfold Edit.andThen
  split
  · next hnone =>
    intro hrefused
    rw [hf hnone] at hrefused
    cases hrefused
  · exact he

/-- A token is set or refused. -/
theorem setToken (m : Message) (token : Token) : Whole m (m.setToken token) := by
  unfold Message.setToken
  split
  · exact refused m _
  · exact done m _

/-- A payload is set or refused. -/
theorem setPayload (m : Message) (payload : Bytes) : Whole m (m.setPayload payload) := by
  unfold Message.setPayload
  split
  · exact refused m _
  · exact done m _

/-- An option is added or refused. -/
theorem addOption (m : Message) (n : OptionNumber) (v : OptionValue) :
    Whole m (m.addOption n v) := by
  unfold Message.addOption
  split
  · exact refused m _
  · split
    · exact refused m _
    · split
      · exact refused m _
      · exact done m _

/-- The values that were dropped to make room are put back. -/
theorem setOption (m : Message) (n : OptionNumber) (v : OptionValue) :
    Whole m (m.setOption n v) := by
  unfold Message.setOption
  dsimp only
  split
  · next hnone =>
    intro hrefused
    rw [hnone] at hrefused
    cases hrefused
  · exact refused m _

end Edit.Whole

namespace Message

variable {m : Message} {n : OptionNumber} {v : OptionValue}

/-- The empty message takes no option. -/
theorem addOption_of_isEmpty (hempty : m.isEmpty) :
    m.addOption n v = ⟨m, some (.notAllowedOnEmpty m.code)⟩ := by
  simp [addOption, hempty]

end Message

namespace Representation

variable {r : Representation} {m : Message}

/-! ### Representations

Nothing is written into an empty message.  In any other message only the name can be refused,
and it is written first. -/

end Representation

/-! ## Paths -/

namespace Message

variable {m : Message} {path s : String}

/-- The segments of a path that are written before one of them is refused: all up to the first
that takes more than 255 bytes, and none if the message is empty. -/
def writtenSegments (m : Message) (path : String) : List String :=
  if m.isEmpty then [] else (Path.segments path).takeWhile (·.utf8ByteSize ≤ 255)

/-- A segment of a path may have 255 bytes. -/
theorem validateFor_uriPath_iff :
    (OptionValue.text s).validateFor .uriPath = .ok () ↔ s.utf8ByteSize ≤ 255 := by
  have hcheck : (OptionValue.text s).validateFor .uriPath =
      (OptionValue.checkLength ⟨.uriPath, "UriPath", .text, 0, 255, true, none⟩ s.utf8ByteSize).bind
        fun _ => .ok () := rfl
  rw [hcheck, OptionValue.checkLength]
  split
  · next hlength =>
    refine iff_of_false (by simp [Except.bind]) ?_
    simp only at hlength
    omega
  · next hlength =>
    refine iff_of_true rfl ?_
    simp only at hlength
    omega

/-- A segment that is not longer is added. -/
theorem addOption_segment (hfull : ¬ m.isEmpty) (hfits : s.utf8ByteSize ≤ 255) :
    m.addOption .uriPath (.text s) =
      ⟨{ m with options := m.options.add .uriPath (.text s) }, none⟩ := by
  have hrepeatable : OptionNumber.uriPath.isRepeatable = true := by decide
  simp [addOption, hfull, validateFor_uriPath_iff.mpr hfits, hrepeatable]

/-- A longer segment is refused. -/
theorem addOption_long_segment (hlong : ¬ s.utf8ByteSize ≤ 255) :
    ∃ fault, m.addOption .uriPath (.text s) = ⟨m, some fault⟩ := by
  unfold addOption
  split
  · exact ⟨_, rfl⟩
  · cases hvalid : (OptionValue.text s).validateFor .uriPath with
    | error fault => exact ⟨_, rfl⟩
    | ok u => exact absurd (validateFor_uriPath_iff.mp hvalid) hlong

/-- Segments are written up to the first that is too long, behind those that are there. -/
theorem addOptions_segments (segments : List String) (hfull : ¬ m.isEmpty) :
    ∃ options, (m.addOptions (segments.map fun s => (.uriPath, .text s))).message =
        { m with options } ∧
      ∀ k, options.values k = m.options.values k ++
        if .uriPath = k then (segments.takeWhile (·.utf8ByteSize ≤ 255)).map .text else [] := by
  induction segments generalizing m with
  | nil => exact ⟨m.options, rfl, fun k => by simp⟩
  | cons s rest ih =>
    rw [List.map_cons, addOptions]
    by_cases hfits : s.utf8ByteSize ≤ 255
    · obtain ⟨options, hmessage, hvalues⟩ :=
        ih (m := { m with options := m.options.add .uriPath (.text s) }) hfull
      refine ⟨options, ?_, fun k => ?_⟩
      · rw [addOption_segment hfull hfits, Edit.andThen_done, hmessage]
      · rw [hvalues, Options.values_add, List.append_assoc,
          List.takeWhile_cons_of_pos (by simpa using hfits)]
        split <;> rfl
    · obtain ⟨fault, hlong⟩ := addOption_long_segment (m := m) hfits
      refine ⟨m.options, by rw [hlong, Edit.andThen_failed], fun k => ?_⟩
      rw [List.takeWhile_cons_of_neg (by simpa using hfits)]
      simp

/-- The message that setting a path leaves, whether the path is refused or not: it differs in the
path at most, which consists of the segments written before one was refused. -/
theorem message_setUriPath (m : Message) (path : String) :
    ∃ options, (m.setUriPath path).message = { m with options } ∧
      ∀ k, options.values k =
        if .uriPath = k then (m.writtenSegments path).map .text else m.options.values k := by
  unfold setUriPath writtenSegments
  by_cases hempty : m.isEmpty
  · refine ⟨m.options.remove .uriPath, ?_, fun k => ?_⟩
    · cases (Path.segments path) with
      | nil => rfl
      | cons s rest =>
        rw [List.map_cons, addOptions, addOption_of_isEmpty (m := m.removeOption .uriPath) hempty]
        rfl
    · rw [Options.values_remove, if_pos hempty]
      rfl
  · obtain ⟨options, hmessage, hvalues⟩ :=
      addOptions_segments (m := m.removeOption .uriPath) (Path.segments path) hempty
    refine ⟨options, hmessage, fun k => ?_⟩
    rw [hvalues, removeOption, Options.values_remove, if_neg hempty]
    split
    · rfl
    · exact List.append_nil _

end Message

/-! ## The calls of a message -/

end Coap
