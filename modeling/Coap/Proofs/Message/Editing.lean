/-
# What edits do to the options

The options of a message are kept as one list, but they are read one option at a time.  Adding
and removing are described here by the values that each option has afterwards, and an edit that
sets a number by the message it leaves.
-/
import Coap.Message.Typed
import Mathlib.Algebra.Group.Nat.Defs

namespace Coap

namespace Options

variable {o o' : Options} {n k : OptionNumber} {v : OptionValue} {x : OptionEntry}
  {l : List OptionEntry}

/-- Options are their entries. -/
theorem eq_of_entries (h : o.entries = o'.entries) : o = o' := by
  cases o
  cases o'
  cases h
  rfl

/-! ## Adding -/

/-- An entry with the largest number goes to the end. -/
theorem place_eq_append (h : ∀ y ∈ l, y.number.toNat ≤ x.number.toNat) : place x l = l ++ [x] := by
  induction l with
  | nil => rfl
  | cons y rest ih =>
    have hy := h y (List.mem_cons_self ..)
    rw [place, if_neg (by omega), ih fun z hz => h z (List.mem_cons_of_mem _ hz)]
    rfl

/-- The entries of other options do not notice a new entry. -/
theorem filter_place_of_ne (p : OptionEntry → Bool) (hx : ¬ p x) :
    (place x l).filter p = l.filter p := by
  induction l with
  | nil => simp [place, hx]
  | cons y rest ih =>
    rw [place]
    split
    · simp [hx]
    · rw [List.filter_cons, List.filter_cons, ih]

/-- A new entry stands behind the entries its option already has. -/
theorem filter_place_self (h : l.Pairwise fun a b => a.number.toNat ≤ b.number.toNat) :
    (place x l).filter (·.number == x.number) = l.filter (·.number == x.number) ++ [x] := by
  induction l with
  | nil => simp [place]
  | cons y rest ih =>
    obtain ⟨hy, hrest⟩ := List.pairwise_cons.mp h
    rw [place]
    split
    · next hlt =>
      -- all that follows has a greater number
      have hnone : (y :: rest).filter (·.number == x.number) = [] := by
        rw [List.filter_eq_nil_iff]
        intro z hz heq
        have hnumber : z.number = x.number := by simpa using heq
        rcases List.mem_cons.mp hz with rfl | hz
        · rw [hnumber] at hlt
          exact Nat.lt_irrefl _ hlt
        · have hle := hy z hz
          rw [hnumber] at hle
          omega
      rw [List.filter_cons_of_pos (by simp), hnone]
      rfl
    · rw [List.filter_cons, List.filter_cons, ih hrest]
      split <;> simp

/-- A value that is added comes last among those of its number. -/
theorem values_add (o : Options) (n k : OptionNumber) (v : OptionValue) :
    (o.add n v).values k = o.values k ++ if n = k then [v] else [] := by
  rw [values, values, add]
  by_cases h : n = k
  · subst h
    have hself := filter_place_self (x := ⟨n, v⟩) o.ascending
    dsimp only at hself ⊢
    rw [hself]
    simp
  · rw [filter_place_of_ne _ (by simpa using h), if_neg h, List.append_nil]

/-- Options that are added one after the other, in their order, are the options. -/
theorem foldl_add (o : Options) :
    o.entries.foldl (fun o x => o.add x.number x.value) .empty = o := by
  have hentries : ∀ (l : List OptionEntry) (o' : Options),
      (o'.entries ++ l).Pairwise (fun a b => a.number.toNat ≤ b.number.toNat) →
      (l.foldl (fun o x => o.add x.number x.value) o').entries = o'.entries ++ l := by
    intro l
    induction l with
    | nil => simp
    | cons x rest ih =>
      intro o' h
      have hadd : (o'.add x.number x.value).entries = o'.entries ++ [x] :=
        place_eq_append fun y hy =>
          (List.pairwise_append.mp h).2.2 y hy x (List.mem_cons_self ..)
      rw [List.foldl_cons, ih _ (by rw [hadd]; simpa using h), hadd, List.append_assoc]
      rfl
  exact eq_of_entries (hentries o.entries .empty o.ascending)

/-! ## Removing -/

/-- To remove a number takes all its values and no others. -/
theorem values_remove (o : Options) (n k : OptionNumber) :
    (o.remove n).values k = if n = k then [] else o.values k := by
  rw [values, values, remove, List.filter_filter]
  by_cases h : n = k
  · subst h
    simp
  · have hsame : (fun x : OptionEntry => (x.number == k) && (x.number != n)) =
        fun x => x.number == k := by
      funext x
      by_cases hx : x.number = k
      · simp [hx, Ne.symm h]
      · simp [hx]
    rw [hsame, if_neg h]

/-- A number that was removed is not there. -/
theorem has_remove (o : Options) (n : OptionNumber) : (o.remove n).has n = false := by
  simp [has, remove]

/-- Nothing is removed where there is nothing of the number. -/
theorem remove_of_not_has (h : ¬ o.has n) : o.remove n = o := by
  refine eq_of_entries (List.filter_eq_self.mpr fun x hx => ?_)
  simp only [has, List.any_eq_true, not_exists, not_and] at h
  simpa using h x hx

/-- What is added is removed again with the others of its number. -/
theorem remove_add (o : Options) (n : OptionNumber) (v : OptionValue) :
    (o.add n v).remove n = o.remove n :=
  eq_of_entries (filter_place_of_ne _ (by simp))

/-- It does not matter in which order numbers are removed. -/
theorem remove_comm (o : Options) (n k : OptionNumber) :
    (o.remove n).remove k = (o.remove k).remove n :=
  eq_of_entries (by simp only [remove, List.filter_filter, Bool.and_comm])

/-- A number needs to be removed once only. -/
theorem remove_remove (o : Options) (n : OptionNumber) : (o.remove n).remove n = o.remove n :=
  remove_of_not_has (by rw [has_remove]; decide)

end Options

/-! ## Numbers that are set -/

namespace OptionValue

variable {n : OptionNumber} {v : UInt32} {d : OptionDefinition} {bound : Nat}

/-- A number below a power of 256 takes no more bytes than the exponent says. -/
theorem unsignedLength_le_iff : unsignedLength v ≤ bound ↔ v.toNat < 2 ^ (8 * bound) := by
  rw [unsignedLength]
  split
  · next h =>
    rw [h]
    exact iff_of_true (Nat.zero_le _) (Nat.pow_pos (by decide))
  · next h =>
    rw [← Nat.log2_lt h]
    omega

/-- What the registry asks of a number that is to be set. -/
theorem validateFor_unsigned_iff (hd : n.definition? = some d) (hformat : d.format = .unsigned)
    (hmin : d.minLength = 0) :
    (unsigned v).validateFor n = .ok () ↔
      v.toNat < 2 ^ (8 * d.maxLength) ∧ d.implied? ≠ some v ∧
        ¬ ((n = .block1 ∨ n = .block2) ∧ v.toNat % 8 = 7) := by
  obtain ⟨-, rfl⟩ := OptionNumber.mem_of_definition? hd
  rw [validateFor, hd, ← unsignedLength_le_iff]
  dsimp only
  rw [if_pos (show (unsigned v).format = d.format from hformat.symm), checkLength, hmin,
    encodedLength, checkMeaning]
  by_cases hlength : unsignedLength v ≤ d.maxLength
  · rw [if_neg (by omega)]
    by_cases himplied : d.implied? = some v
    · simp [himplied, bind, Except.bind]
    · by_cases hreserved : (d.number = .block1 ∨ d.number = .block2) ∧ v.toNat % 8 = 7
      · simp [himplied, hreserved, bind, Except.bind]
      · simp [himplied, hreserved, hlength, bind, Except.bind]
  · rw [if_pos (by omega)]
    simp [hlength, bind, Except.bind]

end OptionValue

/-- An edit that succeeds gives its message. -/
theorem Edit.message_of_toExcept {e : Edit} {m : Message} (h : e.toExcept = .ok m) :
    e.message = m := by
  unfold toExcept at h
  split at h
  · exact Except.ok.inj h
  · cases h

namespace Message

variable {m : Message} {n k : OptionNumber} {v : UInt32} {payload : Bytes}

/-- A request has a code, so it is not empty. -/
theorem not_isEmpty_of_isRequest (h : m.isRequest) : ¬ m.isEmpty := by
  intro hempty
  have hcode : m.code = .empty := by simpa [isEmpty, Code.isEmpty] using hempty
  rw [isRequest, hcode] at h
  exact absurd h (by decide)

/-- Neither is a response. -/
theorem not_isEmpty_of_isResponse (h : m.isResponse) : ¬ m.isEmpty := by
  intro hempty
  have hcode : m.code = .empty := by simpa [isEmpty, Code.isEmpty] using hempty
  rw [isResponse, hcode] at h
  exact absurd h (by decide)

/-- A message that is not empty may have any payload. -/
theorem setPayload_of_not_isEmpty (hfull : ¬ m.isEmpty) :
    m.setPayload payload = ⟨{ m with payload }, none⟩ := by
  simp [setPayload, hfull]

/-- A number that the registry permits takes the place of what the option was before. -/
theorem setUnsigned_eq (hfull : ¬ m.isEmpty)
    (hvalid : (OptionValue.unsigned v).validateFor n = .ok ()) :
    m.setUnsigned n v =
      ⟨{ m with options := (m.options.remove n).add n (.unsigned v) }, none⟩ := by
  have hempty : m.code.isEmpty = false := by simpa [isEmpty] using hfull
  simp [setUnsigned, setOption, addOption, removeOption, isEmpty, hempty, hvalid,
    Options.has_remove]

/-- A number that the registry does not permit is refused. -/
theorem setUnsigned_fault_ne_none (hinvalid : (OptionValue.unsigned v).validateFor n ≠ .ok ()) :
    (m.setUnsigned n v).fault? ≠ none := by
  rw [setUnsigned, setOption, addOption]
  cases hvalid : (OptionValue.unsigned v).validateFor n with
  | ok u => exact absurd hvalid hinvalid
  | error fault => by_cases hempty : (m.removeOption n).isEmpty <;> simp [hempty]

/-- A chain of edits fails if its first part does. -/
theorem andThen_fault_ne_none {e : Edit} (f : Message → Edit) (he : e.fault? ≠ none) :
    (e.andThen f).fault? ≠ none := by
  rw [Edit.andThen]
  split
  · next hnone => exact absurd hnone he
  · exact he

/-- A single value that is a number is read as one. -/
theorem unsigned?_of_values (h : m.options.values n = [.unsigned v]) : m.unsigned? n = some v := by
  simp [unsigned?, Options.first?, h, OptionValue.unsigned?]

/-! ## Headers -/

/-- The messages differ in their options and payloads at most. -/
def SameHeader (m m' : Message) : Prop := ∃ options payload, m' = { m with options, payload }

namespace SameHeader

variable {m' m'' : Message}

/-- A message has the header that it has. -/
theorem refl (m : Message) : SameHeader m m := ⟨m.options, m.payload, rfl⟩

/-- Headers that are the same as a third one are the same. -/
theorem trans (h : SameHeader m m') (h' : SameHeader m' m'') : SameHeader m m'' := by
  obtain ⟨_, _, rfl⟩ := h
  obtain ⟨options, payload, rfl⟩ := h'
  exact ⟨options, payload, rfl⟩

/-- Types are part of the header. -/
theorem type_eq (h : SameHeader m m') : m'.type = m.type := by
  obtain ⟨_, _, rfl⟩ := h
  rfl

/-- Codes are part of the header. -/
theorem code_eq (h : SameHeader m m') : m'.code = m.code := by
  obtain ⟨_, _, rfl⟩ := h
  rfl

/-- Tokens are part of the header. -/
theorem token_eq (h : SameHeader m m') : m'.token = m.token := by
  obtain ⟨_, _, rfl⟩ := h
  rfl

/-- So is what makes a message empty. -/
theorem not_isEmpty (h : SameHeader m m') (hfull : ¬ m.isEmpty) : ¬ m'.isEmpty := by
  rwa [isEmpty, h.code_eq]

/-! Options and payload may be edited, whether an edit succeeds or not. -/

/-- The payload is not part of the header. -/
theorem setPayload (m : Message) (payload : Bytes) :
    SameHeader m (m.setPayload payload).message := by
  unfold Message.setPayload
  split
  · exact refl m
  · exact ⟨m.options, payload, rfl⟩

/-- Options may be added under the same header. -/
theorem addOption (m : Message) (n : OptionNumber) (v : OptionValue) :
    SameHeader m (m.addOption n v).message := by
  unfold Message.addOption
  repeat' split
  all_goals exact ⟨_, _, rfl⟩

/-- Options may be set under the same header. -/
theorem setOption (m : Message) (n : OptionNumber) (v : OptionValue) :
    SameHeader m (m.setOption n v).message := by
  have hadded : SameHeader m ((m.removeOption n).addOption n v).message :=
    trans ⟨_, _, rfl⟩ (addOption _ n v)
  unfold Message.setOption
  simp only
  split
  · exact hadded
  · exact refl m

/-- Numbers may be set under the same header. -/
theorem setUnsigned (m : Message) (n : OptionNumber) (v : UInt32) :
    SameHeader m (m.setUnsigned n v).message :=
  setOption m n _

/-- Edits may follow each other. -/
theorem andThen {e : Edit} {f : Message → Edit} (he : SameHeader m e.message)
    (hf : ∀ m, SameHeader m (f m).message) : SameHeader m (e.andThen f).message := by
  unfold Edit.andThen
  split
  · exact he.trans (hf _)
  · exact he

end SameHeader

end Message

end Coap
