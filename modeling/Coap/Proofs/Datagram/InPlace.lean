/-
# Options read in place

A reader that goes through a datagram in place does what reading from the front of the remaining
bytes does: each of its calls follows one step of that reading (`next_follows`).  So it never asks
for a byte that is not there, its number stays within 16 bits until it reports that it does not,
and its calls come to an end.
-/
import Coap.Datagram.Reader
import Coap.Proofs.Datagram.RoundTrip

namespace Coap.Datagram

/-! ## One step of reading -/

/-- **A step finds an option exactly behind its written header.** -/
theorem nextOption_eq_option_iff_header {previous number : Nat} {bytes value rest : Bytes} :
    nextOption previous bytes = .ok (.option number value rest) ↔
      previous ≤ number ∧ number ≤ 65535 ∧ value.length ≤ 65804 ∧
        bytes = optionHeader (number - previous) value.length ++ value ++ rest := by
  rw [nextOption_eq_option_iff]
  constructor
  · rintro ⟨head, delta, deltaBytes, lengthBytes, hdelta, hlength, rfl, hnumber, rfl⟩
    refine ⟨Nat.le_add_right .., hnumber, hlength.le, ?_⟩
    rw [Nat.add_sub_cancel_left, hdelta.header_eq hlength]
    rfl
  · rintro ⟨hle, hnumber, hlength, rfl⟩
    obtain ⟨head, deltaBytes, lengthBytes, hheader, hdelta, hvalue⟩ :=
      exists_amounts (show number - previous ≤ 65804 by omega) hlength
    rw [hheader]
    exact ⟨head, _, deltaBytes, lengthBytes, hdelta, hvalue, by omega, hnumber, rfl⟩

theorem length_options_readBody_le (previous : Nat) (bytes : Bytes) :
    (readBody previous bytes).options.length ≤ bytes.length := by
  fun_induction readBody previous bytes with
  | case1 => exact Nat.zero_le _
  | case2 => exact Nat.zero_le _
  | case3 previous bytes number value rest hstep body ih =>
    exact Nat.lt_of_le_of_lt ih (length_of_nextOption hstep)

namespace OptionReader

variable {r r' : OptionReader} {options : List RawOption}

/-! ## The bytes that are looked at -/

theorem getElem?_position (r : OptionReader) (i : Nat) :
    r.bytes[r.position + i]? = r.remaining[i]? := by
  rw [remaining, List.getElem?_drop]

theorem length_remaining (r : OptionReader) :
    r.remaining.length = r.bytes.length - r.position := List.length_drop

/-- The bytes of a value are there if the datagram is long enough. -/
theorem slice_position {length : Nat} (h : r.position + length ≤ r.bytes.length) :
    r.slice r.position (r.position + length) = .ok (r.remaining.take length) := by
  rw [slice, if_pos ⟨Nat.le_add_right .., h⟩, Nat.add_sub_cancel_left]
  rfl

/-- An amount is read in place as it is read from the front of the remaining bytes. -/
theorem readAmount_follows (r : OptionReader) (nibble : Nat) :
    match Datagram.readAmount nibble r.remaining with
    | .error fault => r.readAmount nibble = (.error fault, r)
    | .ok (n, rest) => ∃ i ≤ r.remaining.length,
        r.readAmount nibble = (.ok n, r.advance i) ∧ (r.advance i).remaining = rest := by
  have hfirst := r.getElem?_position 0
  have hsecond := r.getElem?_position 1
  rw [Nat.add_zero] at hfirst
  simp only [remaining_advance]
  unfold readAmount Datagram.readAmount
  rw [hfirst, hsecond]
  by_cases h12 : nibble ≤ 12
  · simp only [if_pos h12]
    exact ⟨0, Nat.zero_le _, rfl, rfl⟩
  by_cases h13 : nibble = 13
  · simp only [if_neg h12, if_pos h13]
    cases r.remaining with
    | nil => rfl
    | cons b rest => exact ⟨1, Nat.le_add_left .., rfl, rfl⟩
  by_cases h14 : nibble = 14
  · simp only [if_neg h12, if_neg h13, if_pos h14]
    match r.remaining with
    | [] => rfl
    | [_] => rfl
    | high :: low :: rest => exact ⟨2, Nat.le_add_left .., rfl, rfl⟩
  · simp only [if_neg h12, if_neg h13, if_neg h14]

/-! ## One call -/

/-- A call answers what a step from the front of the remaining bytes finds, and leaves the reader
where that step ends. -/
def Follows (found : Except FormatFault OptionStep)
    (called : Except Misstep (Answer × OptionReader)) : Prop :=
  match found with
  | .error fault => ∃ r', called = .ok (.error fault, r')
  | .ok (.finish payload) =>
    ∃ r', called = .ok (.ok none, r') ∧ r'.finished = true ∧ r'.remaining = payload
  | .ok (.option number value rest) =>
    ∃ r', called = .ok (.ok (some ⟨.ofNat number, value⟩), r') ∧ r'.finished = false ∧
      r'.number.toNat = number ∧ r'.remaining = rest

/-- A reader that can go on: it is not finished, and its number was accepted. -/
structure Ready (r : OptionReader) : Prop where
  unfinished : r.finished = false
  number_le : r.number.toNat ≤ 65535

theorem Ready.advance (h : r.Ready) (n : Nat) : (r.advance n).Ready := ⟨h.1, h.2⟩

/-- The last checks, and the value. -/
theorem readValue_follows {gap length : Nat} (h : r.Ready) (hgap : gap ≤ 65804)
    (hplace : r.position ≤ r.bytes.length) :
    Follows
      (if r.number.toNat + gap > 65535 then .error .optionNumberOverflow
        else if r.remaining.length < length then .error .truncatedOption
        else .ok (.option (r.number.toNat + gap) (r.remaining.take length)
          (r.remaining.drop length)))
      (r.readValue gap length) := by
  have hnumber := h.number_le
  -- the sum of a number that was accepted and a gap fits 32 bits by far
  have hfits : r.number.toNat + gap < UInt32.size := by
    simp only [UInt32.size]
    omega
  have hsum : (UInt32.ofNat (r.number.toNat + gap)).toNat = r.number.toNat + gap :=
    UInt32.toNat_ofNat_of_lt' hfits
  have hlength := r.length_remaining
  simp only [readValue, addGap, if_pos hfits, bind, Except.bind, hsum]
  by_cases hover : r.number.toNat + gap > 65535
  · rw [if_pos hover, if_pos hover]
    exact ⟨_, rfl⟩
  rw [if_neg hover, if_neg hover]
  by_cases hshort : r.remaining.length < length
  · rw [if_pos hshort, if_pos (by omega)]
    exact ⟨_, rfl⟩
  rw [if_neg hshort, if_neg (by omega)]
  rw [slice_position (r := { r with number := .ofNat (r.number.toNat + gap) })
    (show r.position + length ≤ r.bytes.length by omega)]
  exact ⟨_, rfl, h.unfinished, hsum, remaining_advance r length⟩

/-- An option is read behind its first byte as a step reads it there. -/
theorem readOption_follows (h : r.Ready) (hplace : r.position ≤ r.bytes.length) {head : UInt8}
    (hhead : head ≠ payloadMarker) :
    Follows (nextOption r.number.toNat (head :: r.remaining)) (r.readOption head) := by
  rw [nextOption, if_neg hhead, readOption]
  have hgap := r.readAmount_follows (head.toNat / 16)
  cases hfirst : Datagram.readAmount (head.toNat / 16) r.remaining with
  | error fault =>
    rw [hfirst] at hgap
    simp only [hgap]
    exact ⟨_, rfl⟩
  | ok found =>
    obtain ⟨gap, afterGap⟩ := found
    rw [hfirst] at hgap
    obtain ⟨i, hi, hgap, rfl⟩ := hgap
    obtain ⟨_, -, hamount⟩ := readAmount_eq_ok_iff.mp hfirst
    simp only [hgap, bind, Except.bind]
    have hlength := (r.advance i).readAmount_follows (head.toNat % 16)
    cases hsecond : Datagram.readAmount (head.toNat % 16) (r.advance i).remaining with
    | error fault =>
      rw [hsecond] at hlength
      simp only [hlength]
      exact ⟨_, rfl⟩
    | ok found =>
      obtain ⟨length, afterLength⟩ := found
      rw [hsecond] at hlength
      obtain ⟨k, hk, hlength, rfl⟩ := hlength
      simp only [hlength]
      -- amounts take up only bytes that are there, so the place is still in the datagram
      rw [length_remaining] at hi hk
      exact readValue_follows ((h.advance i).advance k) hamount.le
        (by simp only [bytes_advance, position_advance] at hk ⊢; omega)

/-- **A call follows a step.** -/
theorem next_follows (h : r.Ready) : Follows (nextOption r.number.toNat r.remaining) r.next := by
  have hlength := r.length_remaining
  cases hbytes : r.remaining with
  | nil =>
    rw [hbytes, List.length_nil] at hlength
    have hend : r.bytes.length ≤ r.position := by omega
    rw [next, if_pos (.inr hend)]
    exact ⟨_, rfl, rfl, hbytes⟩
  | cons head tail =>
    rw [hbytes, List.length_cons] at hlength
    have hfurther : ¬ (r.finished ∨ r.bytes.length ≤ r.position) := by
      simp only [h.unfinished, Bool.false_eq_true, false_or]
      omega
    have hhead : r.byteAt r.position = .ok head := by
      have hget := r.getElem?_position 0
      rw [Nat.add_zero, hbytes] at hget
      rw [byteAt, hget]
      rfl
    have htail : (r.advance 1).remaining = tail := by
      rw [remaining_advance, hbytes]
      rfl
    rw [next, if_neg hfurther, hhead]
    by_cases hmarker : head = payloadMarker
    · rw [nextOption, if_pos hmarker]
      exact ⟨_, if_pos hmarker, rfl, htail⟩
    · have hoption := readOption_follows (h.advance 1)
        (show r.position + 1 ≤ r.bytes.length by omega) hmarker
      rw [htail] at hoption
      simp only [bind, Except.bind, if_neg hmarker]
      exact hoption

/-! ## No call asks for a byte that is not there -/

theorem readValue_ne_outOfBounds (r : OptionReader) (gap length : Nat) :
    r.readValue gap length ≠ .error .outOfBounds := by
  by_cases hfits : r.number.toNat + gap < UInt32.size
  · simp only [readValue, addGap, if_pos hfits, bind, Except.bind]
    split
    · nofun
    · split
      · nofun
      · next hlong =>
        rw [slice_position (r := { r with number := .ofNat (r.number.toNat + gap) })
          (Nat.le_of_not_lt hlong)]
        nofun
  · simp only [readValue, addGap, if_neg hfits, bind, Except.bind]
    decide

theorem readOption_ne_outOfBounds (r : OptionReader) (head : UInt8) :
    r.readOption head ≠ .error .outOfBounds := by
  unfold readOption
  split
  · nofun
  · split
    · nofun
    · exact readValue_ne_outOfBounds _ _ _

/-- **No reader, whatever its state, ever asks for a byte that is not there.** -/
theorem next_ne_outOfBounds (r : OptionReader) : r.next ≠ .error .outOfBounds := by
  unfold next
  split
  · nofun
  · next hfurther =>
    have hplace : r.position < r.bytes.length := Nat.lt_of_not_le fun h => hfurther (.inr h)
    have hhead : r.byteAt r.position = .ok r.bytes[r.position] := by
      rw [byteAt, List.getElem?_eq_getElem hplace]
    rw [hhead]
    simp only [bind, Except.bind]
    split
    · nofun
    · exact readOption_ne_outOfBounds _ _

/-! ## Call after call -/

/-- `r.Reads options r'`: the calls from `r` on answer with these options, one after the other,
and leave the reader as `r'`. -/
inductive Reads : OptionReader → List RawOption → OptionReader → Prop
  | done (r : OptionReader) : Reads r [] r
  | call {r r' r'' : OptionReader} {x : RawOption} {options : List RawOption}
      (hfirst : r.next = .ok (.ok (some x), r')) (hrest : Reads r' options r'') :
      Reads r (x :: options) r''

/-- `r.Stops ending`: the next call answers that there are no more options, as does every later
one, and the payload remains; or it answers with a fault. -/
inductive Stops (r : OptionReader) : Except FormatFault Bytes → Prop
  | finish {r' : OptionReader} (hlast : r.next = .ok (.ok none, r'))
      (hstays : r'.next = .ok (.ok none, r')) : Stops r (.ok r'.remaining)
  | fault {fault : FormatFault} {r' : OptionReader} (hlast : r.next = .ok (.error fault, r')) :
      Stops r (.error fault)

/-- The number of the last of some options that follow one with number `previous`. -/
def lastNumber (previous : Nat) : List RawOption → Nat
  | [] => previous
  | x :: rest => lastNumber x.number.toNat rest

theorem ready_start (bytes : Bytes) (place : Nat) : (start bytes place).Ready :=
  ⟨rfl, Nat.zero_le _⟩

theorem next_of_finished (h : r.finished = true) : r.next = .ok (.ok none, r) := by
  rw [next, if_pos (.inl h), ← h]

/-- What an answer says of the bytes, and of the reader after it. -/
theorem Ready.of_next (h : r.Ready) {x : RawOption} (hcall : r.next = .ok (.ok (some x), r')) :
    nextOption r.number.toNat r.remaining = .ok (.option x.number.toNat x.bytes r'.remaining) ∧
      r'.Ready ∧ r'.number.toNat = x.number.toNat := by
  have hfollows := next_follows h
  rw [hcall] at hfollows
  cases hstep : nextOption r.number.toNat r.remaining with
  | error fault =>
    rw [hstep] at hfollows
    obtain ⟨_, hanswer⟩ := hfollows
    cases hanswer
  | ok found =>
    rw [hstep] at hfollows
    cases found with
    | finish payload =>
      obtain ⟨_, hanswer, -⟩ := hfollows
      cases hanswer
    | option number value rest =>
      obtain ⟨_, hanswer, hopen, rfl, rfl⟩ := hfollows
      obtain ⟨-, hnumber, -⟩ := nextOption_eq_option_iff_header.mp hstep
      cases hanswer
      rw [OptionNumber.toNat_ofNat (Nat.lt_succ_of_le hnumber)]
      exact ⟨rfl, ⟨hopen, hnumber⟩, rfl⟩

/-- **An option is the answer exactly if its written header and its value come next.** -/
theorem next_eq_option_iff (h : r.Ready) (x : RawOption) (rest : Bytes) :
    (∃ r', r.next = .ok (.ok (some x), r') ∧ r'.remaining = rest) ↔
      r.number.toNat ≤ x.number.toNat ∧ x.bytes.length ≤ 65804 ∧
        r.remaining =
          optionHeader (x.number.toNat - r.number.toNat) x.bytes.length ++ x.bytes ++ rest := by
  constructor
  · rintro ⟨r', hcall, rfl⟩
    obtain ⟨hle, -, hlength, hbytes⟩ := nextOption_eq_option_iff_header.mp (h.of_next hcall).1
    exact ⟨hle, hlength, hbytes⟩
  · rintro ⟨hle, hlength, hbytes⟩
    have hfollows := next_follows h
    rw [nextOption_eq_option_iff_header.mpr
      ⟨hle, Nat.le_of_lt_succ x.number.toNat_lt, hlength, hbytes⟩] at hfollows
    obtain ⟨r', hcall, -, -, hrest⟩ := hfollows
    exact ⟨r', hcall.trans (by rw [OptionNumber.ofNat_toNat]), hrest⟩

/-- On its way a reader can go on, and holds the number of the last option. -/
theorem Reads.ready (h : r.Reads options r') (hready : r.Ready) :
    r'.Ready ∧ r'.number.toNat = lastNumber r.number.toNat options := by
  induction h with
  | done r => exact ⟨hready, rfl⟩
  | call hfirst _ ih =>
    obtain ⟨-, hready', hnumber⟩ := hready.of_next hfirst
    obtain ⟨hlast, hnumber'⟩ := ih hready'
    exact ⟨hlast, hnumber'.trans (by rw [hnumber]; rfl)⟩

/-- **Call after call** a reader answers with the options that are read from the front of the
remaining bytes, and then stops as that reading ends. -/
theorem reads_readBody (h : r.Ready) :
    ∃ r', r.Reads (readBody r.number.toNat r.remaining).options r' ∧
      r'.Stops (readBody r.number.toNat r.remaining).ending := by
  -- the reading from the front goes through the remaining bytes, and the reader along with it
  generalize hprevious : r.number.toNat = previous
  generalize hbytes : r.remaining = bytes
  fun_induction readBody previous bytes generalizing r with
  | case1 previous bytes fault hstep =>
    subst hprevious hbytes
    have hfollows := next_follows h
    rw [hstep] at hfollows
    obtain ⟨_, hcall⟩ := hfollows
    exact ⟨r, .done r, .fault hcall⟩
  | case2 previous bytes payload hstep =>
    subst hprevious hbytes
    have hfollows := next_follows h
    rw [hstep] at hfollows
    obtain ⟨_, hcall, hfinished, rfl⟩ := hfollows
    exact ⟨r, .done r, .finish hcall (next_of_finished hfinished)⟩
  | case3 previous bytes number value rest hstep body =>
    rename_i ih
    subst hprevious hbytes
    have hfollows := next_follows h
    rw [hstep] at hfollows
    obtain ⟨r₁, hcall, hopen, hnumber, hrest⟩ := hfollows
    obtain ⟨-, hle, -⟩ := nextOption_eq_option_iff_header.mp hstep
    obtain ⟨r', hreads, hstops⟩ := ih ⟨hopen, hnumber.trans_le hle⟩ hnumber hrest
    exact ⟨r', .call hcall hreads, hstops⟩

theorem reads_start (bytes : Bytes) (place : Nat) :
    ∃ r, (start bytes place).Reads (readBody 0 (bytes.drop place)).options r ∧
      r.Stops (readBody 0 (bytes.drop place)).ending :=
  reads_readBody (ready_start bytes place)

/-- **Options are read in place as they were written.**  Options in ascending order are answered
with one after the other, each in its own call, wherever in a datagram they were written; then
nothing more is, and what followed the marker remains.  On its way a reader answers with an option
exactly if the header that is written for it comes next, with its value behind it: no other bytes
stand for the same gap and length.  Whatever the bytes are, the calls come to an end, with the
options and the ending that reading from the front finds, and none of them asks for a byte that is
not there or outgrows the number.  The options of a message are written in this way. -/
theorem options_read_in_place :
    (∀ (before : Bytes) (options : List RawOption) (tail : Option Bytes),
      options.Pairwise (fun x y => x.number.toNat ≤ y.number.toNat) →
      (∀ x ∈ options, x.bytes.length ≤ 65804) →
      ∃ r, (start (before ++ (writeOptions 0 options ++ tailBytes tail)) before.length).Reads
          options r ∧ r.Stops (.ok (tail.getD []))) ∧
    (∀ (bytes : Bytes) (place : Nat) (options : List RawOption) (r : OptionReader),
      (start bytes place).Reads options r →
      ∀ (x : RawOption) (rest : Bytes),
        (∃ r', r.next = .ok (.ok (some x), r') ∧ r'.remaining = rest) ↔
          lastNumber 0 options ≤ x.number.toNat ∧ x.bytes.length ≤ 65804 ∧
            r.remaining = optionHeader (x.number.toNat - lastNumber 0 options) x.bytes.length ++
              x.bytes ++ rest) ∧
    (∀ (bytes : Bytes) (place : Nat),
      let body := readBody 0 (bytes.drop place)
      body.options.length ≤ bytes.length - place ∧
        ∃ r, (start bytes place).Reads body.options r ∧ r.Stops body.ending) ∧
    (∀ r : OptionReader, r.next ≠ .error .outOfBounds) ∧
    ∀ entries : List OptionEntry,
      encodeEntries 0 entries = writeOptions 0 (entries.map RawOption.ofEntry) := by
  refine ⟨?_, ?_, ?_, next_ne_outOfBounds, encodeEntries_eq 0⟩
  · intro before options tail hascending hlength
    have hrun := readBody_of_run (run_writeOptions 0 tail hlength
      (fun _ _ => Nat.zero_le _) hascending)
    obtain ⟨r, hreads, hstops⟩ :=
      reads_start (before ++ (writeOptions 0 options ++ tailBytes tail)) before.length
    rw [List.drop_left, hrun] at hreads hstops
    exact ⟨r, hreads, hstops⟩
  · intro bytes place options r hreads x rest
    obtain ⟨hready, hnumber⟩ := hreads.ready (ready_start bytes place)
    have hiff := next_eq_option_iff hready x rest
    rwa [hnumber] at hiff
  · intro bytes place body
    have hcount := length_options_readBody_le 0 (bytes.drop place)
    rw [List.length_drop] at hcount
    exact ⟨hcount, reads_start bytes place⟩

/-- Gaps and lengths on both sides of the limits between the three forms, behind a first byte and
before a payload that begins with another marker; and a gap of one. -/
theorem options_read_in_place_at_limits :
    let options : List RawOption := [⟨.ofNat 12, List.replicate 12 1⟩,
      ⟨.ofNat 25, List.replicate 13 2⟩, ⟨.ofNat 293, List.replicate 268 3⟩,
      ⟨.ofNat 562, List.replicate 269 4⟩, ⟨.ofNat 562, []⟩]
    let written := [0xCC] ++ List.replicate 12 1 ++ [0xDD, 0, 0] ++ List.replicate 13 2 ++
      [0xDD, 255, 255] ++ List.replicate 268 3 ++ [0xEE, 0, 0, 0, 0] ++ List.replicate 269 4 ++
      [0x00]
    options.Pairwise (fun x y => x.number.toNat ≤ y.number.toNat) ∧
    (∀ x ∈ options, x.bytes.length ≤ 65804) ∧ writeOptions 0 options = written ∧
    (∃ r, (start ([0x40] ++ (written ++ [0xFF, 0xFF, 7])) 1).Reads options r ∧
      r.Stops (.ok [0xFF, 7])) ∧
    ∃ r', (start [0x11, 5, 6] 0).next = .ok (.ok (some ⟨.ofNat 1, [5]⟩), r') ∧
      r'.remaining = [6] := by
  intro options written
  obtain ⟨hwritten, haccepted, -⟩ := options_read_in_place
  have hascending : options.Pairwise (fun x y => x.number.toNat ≤ y.number.toNat) := by decide
  have hlength : ∀ x ∈ options, x.bytes.length ≤ 65804 := by decide +kernel
  have hbytes : writeOptions 0 options = written := by decide +kernel
  have hreads := hwritten [0x40] options (some [0xFF, 7]) hascending hlength
  rw [hbytes] at hreads
  refine ⟨hascending, hlength, hbytes, hreads, ?_⟩
  exact (haccepted [0x11, 5, 6] 0 [] _ (.done _) ⟨.ofNat 1, [5]⟩ [6]).mpr
    ⟨by decide, by decide, by decide⟩

end OptionReader

end Coap.Datagram
