/-
# What is written is read again

A well-formed message is carried by the datagram that is written for it, so the reader finds
it there.  The options are the long part: option after option the header announces the gap to
the number before and the length of the value (`run_writeOptions`), and the reader accepts
the value because the check in memory did (`keeps_written`).
-/
import Coap.Proofs.Datagram.Reading
import Coap.Proofs.Message.Building

namespace Coap.Datagram

/-! ## The parts of a written datagram -/

/-- What is written behind the options. -/
def payloadBytes (payload : Bytes) : Bytes :=
  if payload.isEmpty then [] else payloadMarker :: payload

theorem encode_eq (m : Message) : encode m =
    UInt8.ofNat (64 + m.type.bits * 16 + m.token.bytes.length) :: m.code.byte ::
      UInt8.ofNat (m.id.toNat / 256) :: UInt8.ofNat m.id.toNat ::
      (m.token.bytes ++ (encodeEntries 0 m.options.entries ++ payloadBytes m.payload)) := by
  simp [encode, version, payloadBytes, Bytes.ofUInt16]

/-- What the reader makes of the first byte that is written. -/
theorem header_spec {type : MessageType} {token : Token} {first : UInt8}
    (h : UInt8.ofNat (64 + type.bits * 16 + token.bytes.length) = first) :
    first.toNat / 64 = 1 ∧ token.bytes.length = first.toNat % 16 ∧
      MessageType.ofBits (first.toNat / 16) = type := by
  have hbits := type.bits_lt
  have hlen : token.bytes.length ≤ 8 := token.length_le
  have hfirst : first.toNat = 64 + type.bits * 16 + token.bytes.length := by
    rw [← h]
    exact UInt8.toNat_ofNat_of_lt' (by simp only [UInt8.size]; omega)
  refine ⟨by omega, by omega, ?_⟩
  rw [show first.toNat / 16 = 4 + type.bits by omega]
  cases type <;> rfl

/-! ## Option headers -/

theorem nibbleOf_le (n : Nat) : nibbleOf n ≤ 14 := by
  rw [nibbleOf]
  split
  · omega
  · split <;> omega

theorem nibbles_of_head {a b : Nat} (ha : a ≤ 14) (hb : b ≤ 14) :
    (UInt8.ofNat (a * 16 + b)).toNat / 16 = a ∧ (UInt8.ofNat (a * 16 + b)).toNat % 16 = b := by
  rw [UInt8.toNat_ofNat_of_lt' (by simp only [UInt8.size]; omega)]
  omega

/-- Two amounts that a datagram announces one after the other are a written header. -/
theorem Amount.header_eq {head : UInt8} {deltaBytes lengthBytes : Bytes} {delta length : Nat}
    (hdelta : Amount (head.toNat / 16) deltaBytes delta)
    (hlength : Amount (head.toNat % 16) lengthBytes length) :
    optionHeader delta length = head :: (deltaBytes ++ lengthBytes) := by
  obtain ⟨hd, rfl⟩ := hdelta.eq_nibbleOf
  obtain ⟨hl, rfl⟩ := hlength.eq_nibbleOf
  rw [optionHeader, ← hd, ← hl, Nat.mul_comm, Nat.div_add_mod, UInt8.ofNat_toNat]

/-- A written header announces the two amounts it was written for. -/
theorem exists_amounts {delta length : Nat} (hdelta : delta ≤ 65804) (hlength : length ≤ 65804) :
    ∃ head deltaBytes lengthBytes,
      optionHeader delta length = head :: (deltaBytes ++ lengthBytes) ∧
        Amount (head.toNat / 16) deltaBytes delta ∧
        Amount (head.toNat % 16) lengthBytes length := by
  -- both nibbles come back out of the head byte
  obtain ⟨hd, hl⟩ := nibbles_of_head (nibbleOf_le delta) (nibbleOf_le length)
  refine ⟨_, _, _, rfl, ?_, ?_⟩
  · rw [hd]
    exact amount_nibbleOf hdelta
  · rw [hl]
    exact amount_nibbleOf hlength

/-- A written header is read as the gap and the length it was written for. -/
theorem OptionRun.header {previous number : Nat} {value rest : Bytes}
    {options : List RawOption} {tail : Option Bytes} (hle : previous ≤ number)
    (hnumber : number ≤ 65535) (hlength : value.length ≤ 65804)
    (hrest : OptionRun number rest options tail) :
    OptionRun previous (optionHeader (number - previous) value.length ++ value ++ rest)
      (⟨.ofNat number, value⟩ :: options) tail := by
  obtain ⟨head, deltaBytes, lengthBytes, hheader, hdelta, hvalue⟩ :=
    exists_amounts (show number - previous ≤ 65804 by omega) hlength
  have hsum : previous + (number - previous) = number := by omega
  have hrun := OptionRun.option hdelta hvalue (by omega) (hsum.symm ▸ hrest)
  rw [hsum] at hrun
  rw [hheader]
  exact hrun

/-- The bytes of options that follow one with number `previous`. -/
def writeOptions (previous : Nat) : List RawOption → Bytes
  | [] => []
  | x :: rest =>
    optionHeader (x.number.toNat - previous) x.bytes.length ++ x.bytes ++
      writeOptions x.number.toNat rest

/-- What follows the options: nothing, or a marker and a payload. -/
def tailBytes : Option Bytes → Bytes
  | none => []
  | some payload => payloadMarker :: payload

/-- Options in ascending order are written as a run of them. -/
theorem run_writeOptions {options : List RawOption} (previous : Nat) (tail : Option Bytes)
    (hlength : ∀ x ∈ options, x.bytes.length ≤ 65804)
    (hprevious : ∀ x ∈ options, previous ≤ x.number.toNat)
    (hascending : options.Pairwise fun a b => a.number.toNat ≤ b.number.toNat) :
    OptionRun previous (writeOptions previous options ++ tailBytes tail) options tail := by
  induction options generalizing previous with
  | nil =>
    cases tail with
    | none => exact .finish previous
    | some payload => exact .marker previous payload
  | cons x rest ih =>
    obtain ⟨hx, hrest⟩ := List.pairwise_cons.mp hascending
    have hlater := ih x.number.toNat (fun y hy => hlength y (List.mem_cons_of_mem _ hy)) hx hrest
    have hnumber := x.number.toNat_lt
    have hstep := OptionRun.header (hprevious x (List.mem_cons_self ..)) (by omega)
      (hlength x (List.mem_cons_self ..)) hlater
    rw [OptionNumber.ofNat_toNat] at hstep
    rw [writeOptions, List.append_assoc _ _ (tailBytes tail)]
    exact hstep

/-! ## Options -/

/-- An entry as it stands in a datagram. -/
def RawOption.ofEntry (x : OptionEntry) : RawOption := ⟨x.number, x.value.bytes⟩

theorem encodeEntries_eq (previous : Nat) (entries : List OptionEntry) :
    encodeEntries previous entries = writeOptions previous (entries.map RawOption.ofEntry) := by
  induction entries generalizing previous with
  | nil => rfl
  | cons x rest ih => exact congrArg (_ ++ ·) (ih _)

theorem length_bytes_le {x : OptionEntry} (h : x.value.validateFor x.number = .ok ()) :
    x.value.bytes.length ≤ 65804 := by
  obtain ⟨hm, ⟨d, hd, -⟩, -⟩ :=
    OptionValue.decode_eq_ok_iff.mp (OptionValue.validateFor_eq_ok_iff.mp h)
  have hmax := (OptionValue.Malformed.length_mem hd hm).2
  have := (OptionDefinition.sound hd).maxLength_le
  omega

/-- Entries in ascending order are written as a run of options, and a marker only in front of
a payload. -/
theorem run_encodeEntries {entries : List OptionEntry} {previous : Nat} (payload : Bytes)
    (hvalid : ∀ x ∈ entries, x.value.validateFor x.number = .ok ())
    (hprevious : ∀ x ∈ entries, previous ≤ x.number.toNat)
    (hascending : entries.Pairwise fun a b => a.number.toNat ≤ b.number.toNat) :
    ∃ tail, OptionRun previous (encodeEntries previous entries ++ payloadBytes payload)
      (entries.map RawOption.ofEntry) tail ∧ tail.getD [] = payload ∧ tail ≠ some [] := by
  have hrun (tail : Option Bytes) :
      OptionRun previous (writeOptions previous (entries.map RawOption.ofEntry) ++ tailBytes tail)
        (entries.map RawOption.ofEntry) tail := by
    refine run_writeOptions previous tail ?_ ?_ (List.pairwise_map.mpr hascending)
    · exact List.forall_mem_map.mpr fun x hx => length_bytes_le (hvalid x hx)
    · exact List.forall_mem_map.mpr hprevious
  rw [encodeEntries_eq, payloadBytes]
  split
  · next h => exact ⟨none, hrun none, (List.isEmpty_iff.mp h).symm, by simp⟩
  · next h =>
    exact ⟨some payload, hrun (some payload), rfl, fun hs => h (by simp [Option.some.inj hs])⟩

/-- The options that are written for entries are kept as these entries, and none of them is
unacceptable. -/
theorem keeps_written (kept : List OptionEntry) {entries : List OptionEntry}
    (hvalid : ∀ x ∈ entries, x.value.validateFor x.number = .ok ())
    (hsingle : (kept ++ entries).Pairwise fun a b =>
      a.number = b.number → a.number.isRepeatable) :
    Keeps kept (entries.map RawOption.ofEntry) entries ∧
      CriticalAcceptable kept (entries.map RawOption.ofEntry) := by
  induction entries generalizing kept with
  | nil => exact ⟨.done kept, criticalAcceptable_nil kept⟩
  | cons x rest ih =>
    obtain ⟨hm, hv, hi⟩ := OptionValue.decode_eq_ok_iff.mp
      (OptionValue.validateFor_eq_ok_iff.mp (hvalid x (List.mem_cons_self ..)))
    have hgood : ¬ Unacceptable kept (.ofEntry x) := by
      rintro (h | ⟨hrep, y, hy, heq⟩)
      · exact hm h
      · -- an entry with the same number was kept, so the option may be repeated
        have := (List.pairwise_append.mp hsingle).2.2 y hy x (List.mem_cons_self ..) heq
        rw [heq] at this
        exact hrep this
    have hyield : Yields kept (.ofEntry x) [x] := .entry hgood hv hi
    -- move the entry to those that are kept
    rw [← List.singleton_append, ← List.append_assoc] at hsingle
    obtain ⟨hk, hc⟩ := ih _ (fun y hy => hvalid y (List.mem_cons_of_mem _ hy)) hsingle
    rw [List.map_cons]
    exact ⟨.next hyield hk, (criticalAcceptable_cons_iff hyield).mpr ⟨fun _ => hgood, hc⟩⟩

/-! ## Messages -/

/-- The datagram of a well-formed message carries it, unless it is the empty message that
the protocol has no place for. -/
theorem carries_encode {m : Message} (h : m.WellFormed)
    (hplace : ¬(m.type = .nonConfirmable ∧ m.isEmpty)) : Carries (encode m) m := by
  obtain ⟨type, ⟨code⟩, id, token, options, payload⟩ := m
  rw [encode_eq]
  dsimp only
  generalize hfirst : UInt8.ofNat (64 + type.bits * 16 + token.bytes.length) = first
  obtain ⟨hversion, hlength, htype⟩ := header_spec hfirst
  have hid := Bytes.toUInt16_ofUInt16 id
  by_cases hcode : code = 0
  · have hempty := isEmpty_iff.mpr hcode
    obtain ⟨rfl, rfl, rfl⟩ := h.bare hempty
    have hbare : Carries [first, 0, UInt8.ofNat (id.toNat / 256), UInt8.ofNat id.toNat] _ :=
      .bare hversion (hlength ▸ Nat.zero_le 8) (htype.symm ▸ fun ht => hplace ⟨ht, hempty⟩)
    rw [htype, hid] at hbare
    rw [hcode]
    exact hbare
  · obtain ⟨tail, hrun, rfl, -⟩ := run_encodeEntries payload h.valid (fun _ _ => Nat.zero_le _)
      options.ascending
    obtain ⟨hk, hc⟩ := keeps_written [] h.valid h.single
    have hfull : Carries (first :: code :: UInt8.ofNat (id.toNat / 256) ::
        UInt8.ofNat id.toNat :: (token.bytes ++ _)) _ :=
      .full hversion hlength hcode hrun hk fun _ => hc
    rw [htype, hid] at hfull
    exact hfull

/-- **Round trip.**  Whatever constructors and changes made a message, refused ones among
them, the datagram that is written for it is read as this message. -/
theorem decode_encode_of_built {m : Message} (h : Built m)
    (hplace : ¬(m.type = .nonConfirmable ∧ m.code = .empty)) : decode (encode m) = .ok m := by
  refine decode_eq_ok_iff_carries.mpr (carries_encode h.wellFormed fun ⟨ht, he⟩ => ?_)
  exact hplace ⟨ht, by simpa [Message.isEmpty, Code.isEmpty] using he⟩

/-- A request with two entity tags, one of them added after a larger number, and without
the maximal age that goes without saying and was refused. -/
theorem decode_encode_of_changes :
    let changes : List Change := [.setToken ⟨[7, 9], by decide⟩, .setSize1 300,
      .addOption .etag (.octets [1, 2]), .addOption .maxAge (.unsigned 60),
      .addOption .etag (.octets [0]), .setPayload [104, 105]]
    let m := changes.foldl (fun m c => (c.run m).message) (.request .confirmable .get)
    Built m ∧ ¬(m.type = .nonConfirmable ∧ m.code = .empty) ∧
      encode m = [66, 1, 0, 0, 7, 9, 66, 1, 2, 1, 0, 210, 43, 1, 44, 255, 104, 105] ∧
      decode (encode m) = .ok m := by
  intro changes m
  have hbuilt : Built m := by
    repeat refine .change ?_ _
    exact .request .confirmable .get
  have hplace : ¬(m.type = .nonConfirmable ∧ m.code = .empty) := by decide
  exact ⟨hbuilt, hplace, by decide, decode_encode_of_built hbuilt hplace⟩

end Coap.Datagram
