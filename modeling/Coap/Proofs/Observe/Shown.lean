/-
# What a notification shows

A notification of a state carries the token of the subscription and the number it has come to.
An observer that holds the state already is told just that it is still good; any other observer
is given all of it.  A notification of a failure carries its status and its words instead, and no
number.  Both are written one option after the other, and the only thing that can be refused on
the way is the name of the state.
-/
import Coap.Proofs.Observe.Numbering

namespace Coap

/-! ## Edits that give an option its values -/

/-- The edit succeeds and gives one option just these values; all else is left as it was. -/
def Edit.Gives (m : Message) (n : OptionNumber) (values : List OptionValue) (e : Edit) : Prop :=
  ∃ options, e = ⟨{ m with options }, none⟩ ∧
    ∀ k, options.values k = if n = k then values else m.options.values k

namespace Edit.Gives

variable {m : Message} {n : OptionNumber} {v : OptionValue} {number : UInt32}

/-- An option that the message does not have is given no value by doing nothing. -/
theorem nothing (hnone : m.options.values n = []) : Gives m n [] ⟨m, none⟩ := by
  refine ⟨m.options, rfl, fun k => ?_⟩
  split
  · next hk => rw [← hk, hnone]
  · rfl

/-- A value that is valid is given to a number without values. -/
theorem addOption (hfull : ¬ m.isEmpty) (hvalid : v.validateFor n = .ok ())
    (hnone : m.options.values n = []) : Gives m n [v] (m.addOption n v) := by
  have habsent : m.options.has n = false := by
    rw [Options.has_eq, hnone]
    rfl
  refine ⟨m.options.add n v, by simp [Message.addOption, hfull, hvalid, habsent], fun k => ?_⟩
  rw [Options.values_add]
  split
  · next hk => rw [← hk, hnone, List.nil_append]
  · rw [List.append_nil]

/-- A value takes the place of what the option was before. -/
theorem of_replaced {e : Edit}
    (h : e = ⟨{ m with options := (m.options.remove n).add n v }, none⟩) : Gives m n [v] e := by
  refine ⟨_, h, fun k => ?_⟩
  rw [Options.values_add, Options.values_remove]
  split
  · rw [List.nil_append]
  · rw [List.append_nil]

/-- A number is set in the place of the values that were there. -/
theorem setUnsigned (hfull : ¬ m.isEmpty)
    (hvalid : (OptionValue.unsigned number).validateFor n = .ok ()) :
    Gives m n [.unsigned number] (m.setUnsigned n number) :=
  of_replaced (Message.setUnsigned_eq hfull hvalid)

theorem setObserve (hfull : ¬ m.isEmpty) (number : SequenceNumber) :
    Gives m .observe [.unsigned number.toUInt32] (m.setObserve number) :=
  of_replaced (Subscriptions.setObserve_eq hfull number)

end Edit.Gives

/-! ## Representations -/

namespace Representation

variable {r : Representation} {m : Message}

/-- The name of a representation, if it has one, is a value of the option it is sent in. -/
def Writable (r : Representation) : Prop :=
  ∀ etag, r.etag? = some etag → 1 ≤ etag.length ∧ etag.length ≤ 8

/-- How long the representation may be reused, unless it goes without saying. -/
def shownMaxAge? (r : Representation) : Option UInt32 := r.maxAge?.filter (· ≠ impliedMaxAge)

theorem matchesAny_iff {etags : List Bytes} :
    r.matchesAny etags = true ↔ ∃ etag ∈ etags, r.etag? = some etag := by
  unfold matchesAny
  cases r.etag? <;> simp

/-- An entity tag has one to eight bytes. -/
theorem validateFor_etag_iff {etag : Bytes} :
    (OptionValue.octets etag).validateFor .etag = .ok () ↔ 1 ≤ etag.length ∧ etag.length ≤ 8 := by
  have hcheck : (OptionValue.octets etag).validateFor .etag =
      (OptionValue.checkLength ⟨.etag, "ETag", .octets, 1, 8, true, none⟩ etag.length).bind
        fun _ => .ok () := rfl
  rw [hcheck, OptionValue.checkLength]
  split
  · next hlength =>
    refine iff_of_false (by simp [Except.bind]) ?_
    simp only at hlength
    omega
  · next hlength =>
    refine iff_of_true rfl ?_
    simp only at hlength
    omega

/-- Any time but the one that goes without saying may be said. -/
theorem validateFor_maxAge {seconds : UInt32} (h : seconds ≠ impliedMaxAge) :
    (OptionValue.unsigned seconds).validateFor .maxAge = .ok () := by
  rw [OptionValue.validateFor_unsigned_iff
    (d := ⟨.maxAge, "MaxAge", .unsigned, 0, 4, false, some impliedMaxAge⟩) rfl rfl rfl]
  refine ⟨seconds.toNat_lt, fun himplied => h (Option.some.inj himplied).symm, ?_⟩
  rintro ⟨h | h, -⟩ <;> cases h

theorem validateFor_contentFormat (format : UInt16) :
    (OptionValue.unsigned format.toUInt32).validateFor .contentFormat = .ok () := by
  rw [OptionValue.validateFor_unsigned_iff
    (d := ⟨.contentFormat, "ContentFormat", .unsigned, 0, 2, false, none⟩) rfl rfl rfl]
  refine ⟨format.toNat_lt, nofun, ?_⟩
  rintro ⟨h | h, -⟩ <;> cases h

/-- A representation gives its entity tag. -/
theorem gives_writeEtag (hfull : ¬ m.isEmpty) (hw : r.Writable)
    (hnone : m.options.values .etag = []) :
    Edit.Gives m .etag (r.etag?.toList.map .octets) (r.writeEtag m) := by
  unfold writeEtag
  cases hname : r.etag? with
  | none => exact .nothing hnone
  | some etag => exact .addOption hfull (validateFor_etag_iff.mpr (hw etag hname)) hnone

/-- A representation gives its age, if it has one. -/
theorem gives_writeMaxAge (hfull : ¬ m.isEmpty) (hnone : m.options.values .maxAge = []) :
    Edit.Gives m .maxAge (r.shownMaxAge?.toList.map .unsigned) (r.writeMaxAge m) := by
  unfold writeMaxAge shownMaxAge?
  cases r.maxAge? with
  | none => exact .nothing hnone
  | some seconds =>
    by_cases himplied : seconds = impliedMaxAge
    · simpa [himplied, Option.filter] using Edit.Gives.nothing hnone
    · simpa [himplied, Option.filter, Message.setMaxAge] using
        Edit.Gives.setUnsigned hfull (validateFor_maxAge himplied)

/-- A representation gives its format, if it has one. -/
theorem gives_writeContentFormat (hfull : ¬ m.isEmpty)
    (hnone : m.options.values .contentFormat = []) :
    Edit.Gives m .contentFormat (r.contentFormat?.toList.map fun f => .unsigned f.toUInt32)
      (r.writeContentFormat m) := by
  unfold writeContentFormat
  cases r.contentFormat? with
  | none => exact .nothing hnone
  | some format => exact .setUnsigned hfull (validateFor_contentFormat format)

/-- A name that no option can hold is refused, whatever it is written into. -/
theorem isSome_fault?_writeEtag (hw : ¬ r.Writable) (m : Message) :
    (r.writeEtag m).fault?.isSome = true := by
  obtain ⟨etag, hname, hlength⟩ : ∃ etag, r.etag? = some etag ∧
      ¬ (1 ≤ etag.length ∧ etag.length ≤ 8) := by simpa [Writable] using hw
  unfold writeEtag
  simp only [hname]
  unfold Message.addEtag Message.addOption
  split
  · rfl
  · cases hvalid : (OptionValue.octets etag).validateFor .etag with
    | error fault => rfl
    | ok u => exact absurd (validateFor_etag_iff.mp hvalid) hlength

/-- The validators of a representation are written into two options, and nothing else changes. -/
theorem writeValidators_eq (hfull : ¬ m.isEmpty) (hw : r.Writable)
    (hetag : m.options.values .etag = []) (hmaxAge : m.options.values .maxAge = []) :
    ∃ options, r.writeValidators m = ⟨{ m with options }, none⟩ ∧
      ∀ k, options.values k =
        if .maxAge = k then r.shownMaxAge?.toList.map .unsigned
        else if .etag = k then r.etag?.toList.map .octets
        else m.options.values k := by
  obtain ⟨named, hnamed, hvalues⟩ := gives_writeEtag hfull hw hetag
  have hnone : named.values .maxAge = [] := by
    rw [hvalues, if_neg (by decide), hmaxAge]
  obtain ⟨options, haged, hvalues'⟩ :=
    gives_writeMaxAge (r := r) (m := { m with options := named }) hfull hnone
  refine ⟨options, by rw [writeValidators, hnamed, Edit.andThen_done, haged], fun k => ?_⟩
  rw [hvalues' k]
  simp only [hvalues]

/-- The whole representation is written into three options and the payload. -/
theorem write_eq (hfull : ¬ m.isEmpty) (hw : r.Writable) (hetag : m.options.values .etag = [])
    (hmaxAge : m.options.values .maxAge = []) (hformat : m.options.values .contentFormat = []) :
    ∃ options, r.write m = ⟨{ m with options, payload := r.payload }, none⟩ ∧
      ∀ k, options.values k =
        if .contentFormat = k then r.contentFormat?.toList.map fun f => .unsigned f.toUInt32
        else if .maxAge = k then r.shownMaxAge?.toList.map .unsigned
        else if .etag = k then r.etag?.toList.map .octets
        else m.options.values k := by
  obtain ⟨validated, hvalidated, hvalues⟩ := writeValidators_eq hfull hw hetag hmaxAge
  have hnone : validated.values .contentFormat = [] := by
    rw [hvalues, if_neg (by decide), if_neg (by decide), hformat]
  obtain ⟨options, hformatted, hvalues'⟩ :=
    gives_writeContentFormat (r := r) (m := { m with options := validated }) hfull hnone
  refine ⟨options, ?_, fun k => ?_⟩
  · rw [write, hvalidated, Edit.andThen_done, hformatted, Edit.andThen_done]
    exact Message.setPayload_of_not_isEmpty hfull
  · rw [hvalues' k]
    simp only [hvalues]

end Representation

/-! ## Options that are read back -/

namespace Message

variable {m : Message}

theorem etags_of_values {etag? : Option Bytes}
    (h : m.options.values .etag = etag?.toList.map .octets) : m.etags = etag?.toList := by
  rw [etags, h]
  cases etag? <;> rfl

theorem maxAge?_of_values {seconds? : Option UInt32}
    (h : m.options.values .maxAge = seconds?.toList.map .unsigned) : m.maxAge? = seconds? := by
  rw [maxAge?, unsigned?, Options.first?, h]
  cases seconds? <;> rfl

theorem contentFormat?_of_values {format? : Option UInt16}
    (h : m.options.values .contentFormat =
      format?.toList.map fun f => .unsigned f.toUInt32) : m.contentFormat? = format? := by
  rw [contentFormat?, unsigned16?, unsigned?, Options.first?, h]
  cases format? with
  | none => rfl
  | some format =>
    show (if format.toUInt32.toNat < 65536 then some (UInt16.ofNat format.toUInt32.toNat)
      else none) = some format
    rw [UInt16.toNat_toUInt32, if_pos format.toNat_lt, UInt16.ofNat_toNat]

/-- What the options say when they are those of a numbered representation. -/
theorem read_of_values {r : Representation} {number : SequenceNumber} (format? : Option UInt16)
    (h : ∀ k, m.options.values k =
      if .contentFormat = k then format?.toList.map fun f => .unsigned f.toUInt32
      else if .maxAge = k then r.shownMaxAge?.toList.map .unsigned
      else if .etag = k then r.etag?.toList.map .octets
      else if .observe = k then [.unsigned number.toUInt32] else []) :
    m.etags = r.etag?.toList ∧ m.maxAge? = r.shownMaxAge? ∧ m.contentFormat? = format? ∧
      ∀ n, n ∉ [.observe, .etag, .maxAge, .contentFormat] → m.options.has n = false := by
  refine ⟨etags_of_values (h .etag), maxAge?_of_values (h .maxAge),
    contentFormat?_of_values (h .contentFormat), ?_⟩
  intro n hn
  obtain ⟨hobserve, hetag, hmaxAge, hformat⟩ : n ≠ .observe ∧ n ≠ .etag ∧ n ≠ .maxAge ∧
      n ≠ .contentFormat := by simpa using hn
  rw [Options.has_eq, h, if_neg hformat.symm, if_neg hmaxAge.symm, if_neg hetag.symm,
    if_neg hobserve.symm]
  rfl

end Message

/-! ## Notifications -/

namespace Message

/-- A message tells an observer of a state: to its subscription, under its number, and just that
the state is still good if one of the names the observer knows is that of the state. -/
structure Shows (m : Message) (type : MessageType) (token : Token) (number : SequenceNumber)
    (r : Representation) (etags : List Bytes) : Prop where
  type : m.type = type
  token : m.token = token
  number : m.observed? = some number
  name : m.etags = r.etag?.toList
  maxAge : m.maxAge? = r.shownMaxAge?
  known : (∃ etag ∈ etags, r.etag? = some etag) →
    m.code = .response .valid ∧ m.contentFormat? = none ∧ m.payload = []
  unknown : ¬ (∃ etag ∈ etags, r.etag? = some etag) →
    m.code = .response .content ∧ m.contentFormat? = r.contentFormat? ∧ m.payload = r.payload
  noOther : ∀ n, n ∉ [.observe, .etag, .maxAge, .contentFormat] → m.options.has n = false

/-- A message tells an observer why there is no state to be told of. -/
structure Explains (m : Message) (type : MessageType) (token : Token) (f : Failure) : Prop where
  type : m.type = type
  token : m.token = token
  code : m.code = .response f.status
  payload : m.payload = Bytes.ofString f.message
  noNumber : m.observed? = none
  noOption : m.options = .empty

end Message

namespace Notification

variable (type : MessageType) (token : Token) (number : SequenceNumber) {r : Representation}
  (etags : List Bytes)

/-- A response to a subscription is given its number. -/
theorem numbered_eq (status : Status) : ∃ options,
    (blank type status token).andThen (·.setObserve number) =
      ⟨{ Message.response type status with token, options }, none⟩ ∧
      ∀ k, options.values k = if .observe = k then [.unsigned number.toUInt32] else [] := by
  obtain ⟨options, hset, hvalues⟩ :=
    Edit.Gives.setObserve (not_isEmpty_response type status token) number
  exact ⟨options, by rw [blank_eq, Edit.andThen_done, hset], hvalues⟩

/-- **What can be built shows the state.** -/
theorem ofState_shows (hw : r.Writable) :
    ∃ m, ofState type token number r etags = ⟨m, none⟩ ∧ m.Shows type token number r etags := by
  have hnumber := observed?_ofState type token number r etags
  unfold ofState at hnumber ⊢
  split at hnumber
  · next hmatches =>
    have hknown := Representation.matchesAny_iff.mp hmatches
    obtain ⟨options, hnumbered, hvalues⟩ := numbered_eq type token number .valid
    rw [if_pos hmatches]
    rw [hnumbered, Edit.andThen_done] at hnumber ⊢
    obtain ⟨written, hwritten, hvalues'⟩ := r.writeValidators_eq
      (m := { Message.response type .valid with token, options })
      (not_isEmpty_response type .valid token) hw (hvalues .etag) (hvalues .maxAge)
    rw [hwritten] at hnumber ⊢
    -- a state that is just confirmed is shown without its format
    have hread (k : OptionNumber) : written.values k =
        if .contentFormat = k then []
        else if .maxAge = k then r.shownMaxAge?.toList.map .unsigned
        else if .etag = k then r.etag?.toList.map .octets
        else if .observe = k then [.unsigned number.toUInt32] else [] := by
      rw [hvalues']
      by_cases hformat : .contentFormat = k
      · subst hformat
        exact hvalues .contentFormat
      · rw [if_neg hformat, hvalues]
    obtain ⟨hname, hmaxAge, hformat, hnone⟩ := Message.read_of_values
      (m := { Message.response type .valid with token, options := written }) none hread
    exact ⟨_, rfl, rfl, rfl, hnumber, hname, hmaxAge, fun _ => ⟨rfl, hformat, rfl⟩,
      fun hnot => absurd hknown hnot, hnone⟩
  · next hmatches =>
    have hunknown := mt Representation.matchesAny_iff.mpr hmatches
    obtain ⟨options, hnumbered, hvalues⟩ := numbered_eq type token number .content
    rw [if_neg hmatches]
    rw [hnumbered, Edit.andThen_done] at hnumber ⊢
    obtain ⟨written, hwritten, hvalues'⟩ := r.write_eq
      (m := { Message.response type .content with token, options })
      (not_isEmpty_response type .content token) hw (hvalues .etag) (hvalues .maxAge)
      (hvalues .contentFormat)
    rw [hwritten] at hnumber ⊢
    simp only [hvalues] at hvalues'
    obtain ⟨hname, hmaxAge, hformat, hnone⟩ := Message.read_of_values
      (m := { Message.response type .content with token, options := written })
      r.contentFormat? hvalues'
    exact ⟨_, rfl, rfl, rfl, hnumber, hname, hmaxAge, fun h => absurd h hunknown,
      fun _ => ⟨rfl, hformat, rfl⟩, hnone⟩

/-- What has a name that no option can hold cannot be built. -/
theorem isSome_fault?_ofState (hw : ¬ r.Writable) :
    (ofState type token number r etags).fault?.isSome = true := by
  have hvalidators (m : Message) : (r.writeValidators m).fault?.isSome = true :=
    Edit.isSome_fault?_andThen (Representation.isSome_fault?_writeEtag hw m) _
  unfold ofState
  split
  · obtain ⟨options, hnumbered, -⟩ := numbered_eq type token number .valid
    rw [hnumbered, Edit.andThen_done]
    exact hvalidators _
  · obtain ⟨options, hnumbered, -⟩ := numbered_eq type token number .content
    rw [hnumbered, Edit.andThen_done, Representation.write]
    exact Edit.isSome_fault?_andThen (Edit.isSome_fault?_andThen (hvalidators _) _) _

/-- **A failure can always be explained.** -/
theorem ofFailure_explains (f : Failure) :
    ∃ m, ofFailure type token f = ⟨m, none⟩ ∧ m.Explains type token f := by
  unfold ofFailure
  rw [blank_eq, Edit.andThen_done,
    Message.setPayload_of_not_isEmpty (not_isEmpty_response type f.status token)]
  exact ⟨_, rfl, rfl, rfl, rfl, rfl, rfl, rfl⟩

end Notification

end Coap
