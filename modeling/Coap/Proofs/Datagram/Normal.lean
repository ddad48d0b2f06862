/-
# Reading and writing again

A datagram that was read can be written again, and what is written need not be what was
read: options that were left out are gone, numbers have lost their leading zeros, and so has
a marker with nothing behind it.  What is written is never longer, though, and it is what was
read if nothing of this kind was there to lose (`Lossless`).

The length takes an argument.  An option that is left out adds its gap to that of the next
one, whose header may grow by this; `saved` says how many bytes were saved with the gap, and
these are enough.
-/
import Coap.Proofs.Datagram.RoundTrip

namespace Coap.Datagram

/-! ## What options leave behind -/

theorem Yields.valid {kept new : List OptionEntry} {raw : RawOption} (h : Yields kept raw new) :
    ∀ x ∈ new, x.value.validateFor x.number = .ok () := by
  cases h with
  | entry hgood hvalue hsaid =>
    intro x hx
    rw [List.mem_singleton.mp hx]
    have hm : ¬ OptionValue.Malformed raw.number raw.bytes := fun hm => hgood (.malformed hm)
    exact OptionValue.validateFor_of_decode (OptionValue.decode_eq_ok_iff.mpr ⟨hm, hvalue, hsaid⟩)
  | nothing => simp

theorem Keeps.valid {kept entries : List OptionEntry} {options : List RawOption}
    (h : Keeps kept options entries) :
    ∀ x ∈ entries, x.value.validateFor x.number = .ok () := by
  induction h with
  | done => simp
  | next hfirst _ ih =>
    intro x hx
    rcases List.mem_append.mp hx with hx | hx
    · exact hfirst.valid x hx
    · exact ih x hx

/-- An option that may occur only once is kept only once. -/
theorem Keeps.single {kept entries : List OptionEntry} {options : List RawOption}
    (h : Keeps kept options entries)
    (hkept : kept.Pairwise fun a b => a.number = b.number → a.number.isRepeatable) :
    (kept ++ entries).Pairwise fun a b => a.number = b.number → a.number.isRepeatable := by
  induction h with
  | done =>
    rw [List.append_nil]
    exact hkept
  | next hfirst _ ih =>
    rw [← List.append_assoc]
    refine ih ?_
    cases hfirst with
    | entry hgood hvalue hsaid =>
      refine List.pairwise_append.mpr ⟨hkept, List.pairwise_singleton .., fun a ha b hb => ?_⟩
      rw [List.mem_singleton.mp hb]
      intro (heq : a.number = _)
      by_contra hrep
      rw [heq] at hrep
      exact hgood (.repeated hrep ⟨a, ha, heq⟩)
    | nothing =>
      rw [List.append_nil]
      exact hkept

/-- What a datagram carries is a message like one that was built. -/
theorem Carries.wellFormed {b : Bytes} {m : Message} (h : Carries b m) : m.WellFormed := by
  cases h with
  | bare => exact .of_no_options rfl fun _ => ⟨rfl, rfl⟩
  | full hversion hlength hcode hbody hkept hcritical =>
    exact ⟨fun he => absurd (isEmpty_iff.mp he) hcode, hkept.valid, hkept.single .nil⟩

theorem Carries.has_place {b : Bytes} {m : Message} (h : Carries b m) :
    ¬(m.type = .nonConfirmable ∧ m.isEmpty) := by
  cases h with
  | bare hversion htoken htype => exact fun h => htype h.1
  | full hversion hlength hcode hbody hkept hcritical => exact fun h => hcode (isEmpty_iff.mp h.2)

/-! ## Length -/

/-- How many bytes extend the nibble of an amount. -/
theorem length_extensionOf (n : Nat) :
    (extensionOf n).length = if n ≤ 12 then 0 else if n ≤ 268 then 1 else 2 := by
  rw [extensionOf]
  split
  · rfl
  · split <;> rfl

/-- How many bytes were saved at least with options that make up a gap. -/
def saved (gap : Nat) : Nat := if gap = 0 then 0 else 1 + (extensionOf gap).length

theorem length_extensionOf_mono {a b : Nat} (h : a ≤ b) :
    (extensionOf a).length ≤ (extensionOf b).length := by
  rw [length_extensionOf, length_extensionOf]
  split_ifs <;> omega

/-- The header of the next option grows by no more than was saved before it. -/
theorem length_extensionOf_add (gap delta : Nat) :
    (extensionOf (gap + delta)).length ≤ saved gap + (extensionOf delta).length := by
  rw [saved, length_extensionOf, length_extensionOf, length_extensionOf]
  split_ifs <;> omega

/-- An option that is left out saves its header, and with it what its gap may cost. -/
theorem saved_add (gap delta : Nat) :
    saved (gap + delta) ≤ saved gap + 1 + (extensionOf delta).length := by
  rw [saved, saved, length_extensionOf, length_extensionOf, length_extensionOf]
  split_ifs <;> omega

theorem length_payloadBytes_le (payload : Bytes) :
    (payloadBytes payload).length ≤ payload.length + 1 := by
  rw [payloadBytes]
  split
  · exact Nat.zero_le _
  · exact Nat.le_refl _

/-- **What is written for the options of a run takes no more bytes than the run**, where
those that were saved since the last option written count as taken. -/
theorem OptionRun.length_written_le {previous last : Nat} {bytes : Bytes}
    {options : List RawOption} {tail : Option Bytes} {kept entries : List OptionEntry}
    (h : OptionRun previous bytes options tail) (hk : Keeps kept options entries)
    (hlast : last ≤ previous) :
    (encodeEntries last entries ++ payloadBytes (tail.getD [])).length ≤
      bytes.length + saved (previous - last) := by
  -- `last` falls behind `previous` with every option that is left out
  induction h generalizing kept entries last with
  | finish previous =>
    cases hk
    exact Nat.zero_le _
  | marker previous payload =>
    cases hk
    rw [encodeEntries, List.nil_append, List.length_cons]
    have := length_payloadBytes_le payload
    simp only [Option.getD_some]
    omega
  | @option previous delta head deltaBytes lengthBytes value rest options tail hdelta hlength
      hnumber _ ih =>
    obtain ⟨-, rfl⟩ := hdelta.eq_nibbleOf
    obtain ⟨-, rfl⟩ := hlength.eq_nibbleOf
    have hgap : previous + delta - last = previous - last + delta := by omega
    cases hk with
    | next hfirst hrest =>
      cases hfirst with
      | @entry v hgood hvalue hsaid =>
        -- written: the gap is spent, and the value is no longer than it was
        obtain ⟨_, -, hspells⟩ := hvalue
        have hself := OptionNumber.toNat_ofNat (Nat.lt_succ_of_le hnumber)
        have hvalue : v.bytes.length ≤ value.length := hspells.length_bytes_le
        have hext := length_extensionOf_mono hvalue
        have hgrow := length_extensionOf_add (previous - last) delta
        have hih := ih hrest (Nat.le_refl _)
        rw [Nat.sub_self, show saved 0 = 0 from rfl] at hih
        rw [List.singleton_append, encodeEntries, hself, hgap]
        simp only [optionHeader, List.length_append, List.length_cons] at hih ⊢
        omega
      | nothing =>
        -- left out: its bytes are saved for the next header
        have hsave := saved_add (previous - last) delta
        have hih := ih hrest (show last ≤ previous + delta by omega)
        rw [hgap] at hih
        simp only [List.nil_append, List.length_append, List.length_cons] at hih ⊢
        omega

/-! ## Lossless datagrams -/

/-- The datagrams in which nothing is lost.  An empty message has no token and nothing after
the header; in any other every option is kept, numbers have no leading zeros, and a marker
has a payload behind it. -/
inductive Lossless : Bytes → Prop
  | bare {first high low : UInt8} (htoken : first.toNat % 16 = 0) :
      Lossless [first, 0, high, low]
  | full {first code high low : UInt8} {token body : Bytes} {options : List RawOption}
      {tail : Option Bytes} {entries : List OptionEntry}
      (hlength : token.length = first.toNat % 16) (hcode : code ≠ 0)
      (hbody : OptionRun 0 body options tail) (hkept : Keeps [] options entries)
      (hall : entries.length = options.length)
      (hzero : ∀ raw ∈ options, ∀ x, OptionValue.Denotes raw.number raw.bytes (.unsigned x) →
        raw.bytes.head? ≠ some 0)
      (htail : tail ≠ some []) :
      Lossless (first :: code :: high :: low :: (token ++ body))

theorem Keeps.length_le {kept entries : List OptionEntry} {options : List RawOption}
    (h : Keeps kept options entries) : entries.length ≤ options.length := by
  induction h with
  | done => exact Nat.le_refl _
  | next hfirst _ ih =>
    rw [List.length_append, List.length_cons]
    cases hfirst <;> simp only [List.length_cons, List.length_nil] <;> omega

theorem Keeps.unique {kept entries entries' : List OptionEntry} {options : List RawOption}
    (h : Keeps kept options entries) (h' : Keeps kept options entries') : entries = entries' := by
  induction h generalizing entries' with
  | done =>
    cases h'
    rfl
  | next hfirst _ ih =>
    obtain ⟨later, rfl, hrest⟩ := (keeps_cons_iff hfirst).mp h'
    rw [ih hrest]

/-- Bytes form a run in one way, except for a marker with nothing behind it. -/
theorem OptionRun.unique {previous : Nat} {bytes : Bytes} {options options' : List RawOption}
    {tail tail' : Option Bytes} (h : OptionRun previous bytes options tail)
    (h' : OptionRun previous bytes options' tail') :
    options = options' ∧ tail.getD [] = tail'.getD [] := by
  have hbody := (readBody_of_run h).symm.trans (readBody_of_run h')
  injection hbody with hoptions hpayload
  exact ⟨hoptions, Except.ok.inj hpayload⟩

/-- Options that are all kept, and without leading zeros, are those written again. -/
theorem Keeps.eq_written {kept entries : List OptionEntry} {options : List RawOption}
    (h : Keeps kept options entries) (hall : entries.length = options.length)
    (hzero : ∀ raw ∈ options, ∀ x, OptionValue.Denotes raw.number raw.bytes (.unsigned x) →
      raw.bytes.head? ≠ some 0) :
    options = entries.map RawOption.ofEntry := by
  induction h with
  | done => rfl
  | @next kept new entries raw options hfirst hrest ih =>
    have hle := hrest.length_le
    cases hfirst with
    | @entry value hgood hvalue hsaid =>
      have hm : ¬ OptionValue.Malformed raw.number raw.bytes := fun hm => hgood (.malformed hm)
      have hbytes : value.bytes = raw.bytes := by
        refine hvalue.bytes_eq hm fun x hx => ?_
        rw [hx] at hvalue
        exact hzero raw (List.mem_cons_self ..) x hvalue
      have hlater := ih (Nat.succ.inj hall) fun r hr => hzero r (List.mem_cons_of_mem _ hr)
      rw [List.singleton_append, List.map_cons, ← hlater, RawOption.ofEntry, hbytes]
    | nothing =>
      -- one option fewer cannot make as many entries
      rw [List.nil_append, List.length_cons] at hall
      omega

/-- Entries that stand for all options of a run are written as this run. -/
theorem OptionRun.eq_written {previous : Nat} {bytes : Bytes} {options : List RawOption}
    {tail : Option Bytes} {entries : List OptionEntry} (h : OptionRun previous bytes options tail)
    (hwritten : options = entries.map RawOption.ofEntry) (htail : tail ≠ some []) :
    encodeEntries previous entries ++ payloadBytes (tail.getD []) = bytes := by
  induction h generalizing entries with
  | finish previous =>
    obtain rfl := List.map_eq_nil_iff.mp hwritten.symm
    rfl
  | marker previous payload =>
    obtain rfl := List.map_eq_nil_iff.mp hwritten.symm
    have hne : payload ≠ [] := fun h => htail (congrArg some h)
    simp [encodeEntries, payloadBytes, hne]
  | @option previous delta head deltaBytes lengthBytes value rest options tail hdelta hlength
      hnumber _ ih =>
    obtain ⟨x, entries, rfl, hx, hentries⟩ := List.map_eq_cons_iff.mp hwritten.symm
    have hn : x.number = .ofNat (previous + delta) := congrArg RawOption.number hx
    have hv : x.value.bytes = value := congrArg RawOption.bytes hx
    have hself := OptionNumber.toNat_ofNat (Nat.lt_succ_of_le hnumber)
    have hheader := hdelta.header_eq hlength
    rw [encodeEntries, hn, hself, hv, Nat.add_sub_cancel_left, hheader,
      List.append_assoc _ _ (payloadBytes _), ih hentries.symm htail]
    rfl

/-! ## Normal datagrams -/

/-- The first byte of a datagram of the version is the one written for what it says. -/
theorem header_eq {first : UInt8} {length : Nat} (hversion : first.toNat / 64 = 1)
    (hlength : length = first.toNat % 16) :
    UInt8.ofNat (64 + (MessageType.ofBits (first.toNat / 16)).bits * 16 + length) = first := by
  have hbits (n : Nat) : (MessageType.ofBits n).bits = n % 4 := by
    have h : n % 4 = 0 ∨ n % 4 = 1 ∨ n % 4 = 2 ∨ n % 4 = 3 := by omega
    rcases h with h | h | h | h <;> rw [MessageType.ofBits, h] <;> rfl
  rw [hbits, hlength,
    show 64 + first.toNat / 16 % 4 * 16 + first.toNat % 16 = first.toNat by omega,
    UInt8.ofNat_toNat]

/-- A lossless datagram that is read is written again as it was. -/
theorem encode_eq_of_lossless {b : Bytes} {m : Message} (h : decode b = .ok m)
    (hb : Lossless b) : encode m = b := by
  cases hb with
  | @bare first high low htoken =>
    obtain ⟨hversion, -, ⟨-, -, rfl⟩ | ⟨hcode, -⟩⟩ := decode_cons_eq_ok_iff.mp h
    · show UInt8.ofNat (64 + (MessageType.ofBits (first.toNat / 16)).bits * 16 + 0) :: 0 ::
        (Bytes.ofUInt16 (Bytes.toUInt16 high low) ++ []) = [first, 0, high, low]
      rw [header_eq hversion htoken.symm, Bytes.ofUInt16_toUInt16]
      rfl
    · exact absurd rfl hcode
  | @full first code high low token body options tail entries hlength hcode hbody hkept hall hzero
      htail =>
    obtain ⟨hversion, -, ⟨h0, -⟩ | ⟨-, token', body', hsplit, hlength', hread⟩⟩ :=
      decode_cons_eq_ok_iff.mp h
    · exact absurd h0 hcode
    · obtain ⟨rfl, rfl⟩ := List.append_inj hsplit (hlength.trans hlength'.symm)
      obtain ⟨options', tail', kept, hrun, hk, -, rfl⟩ := decodeBody_eq_ok_iff.mp hread
      obtain ⟨rfl, hpayload⟩ := hrun.unique hbody
      obtain rfl := hk.unique hkept
      have hbytes := hbody.eq_written (hkept.eq_written hall hzero) htail
      have hid := Bytes.ofUInt16_toUInt16 high low
      rw [Bytes.ofUInt16, List.cons.injEq, List.cons.injEq] at hid
      rw [encode_eq]
      dsimp only
      rw [header_eq hversion hlength, hid.1, hid.2.1, hpayload, hbytes]

/-- What is written for an option has no leading zero, if it is a number. -/
theorem head?_bytes_ne {x : OptionEntry} (h : x.value.validateFor x.number = .ok ()) {v : UInt32}
    (hv : OptionValue.Denotes x.number x.value.bytes (.unsigned v)) :
    x.value.bytes.head? ≠ some 0 := by
  obtain ⟨-, hself, -⟩ :=
    OptionValue.decode_eq_ok_iff.mp (OptionValue.validateFor_eq_ok_iff.mp h)
  rw [hself.unique hv]
  exact Bytes.head?_dropWhile_ne _

/-- Nothing is lost in a datagram that is written. -/
theorem lossless_encode {m : Message} (h : m.WellFormed) : Lossless (encode m) := by
  obtain ⟨type, ⟨code⟩, id, token, options, payload⟩ := m
  rw [encode_eq]
  dsimp only
  generalize hfirst : UInt8.ofNat (64 + type.bits * 16 + token.bytes.length) = first
  obtain ⟨-, hlength, -⟩ := header_spec hfirst
  by_cases hcode : code = 0
  · obtain ⟨rfl, rfl, rfl⟩ := h.bare (isEmpty_iff.mpr hcode)
    rw [hcode]
    exact .bare hlength.symm
  · obtain ⟨tail, hrun, -, htail⟩ := run_encodeEntries payload h.valid (fun _ _ => Nat.zero_le _)
      options.ascending
    obtain ⟨hk, -⟩ := keeps_written [] h.valid h.single
    refine .full hlength hcode hrun hk (List.length_map _).symm (fun raw hraw v hv => ?_) htail
    obtain ⟨x, hx, rfl⟩ := List.mem_map.mp hraw
    exact head?_bytes_ne (h.valid x hx) hv

theorem length_encode_le {b : Bytes} {m : Message} (h : Carries b m) :
    (encode m).length ≤ b.length := by
  rw [encode_eq]
  cases h with
  | bare =>
    simp only [List.length_cons]
    exact Nat.le_add_left 4 _
  | full hversion hlength hcode hbody hkept hcritical =>
    have := hbody.length_written_le hkept (Nat.le_refl 0)
    rw [show saved (0 - 0) = 0 from rfl] at this
    simp only [List.length_cons, List.length_append] at this ⊢
    omega

/-- **Reading makes a datagram normal.**  The message that was read is written as a datagram
in which it is read again; this is never longer than the one it came in, and it is the same
if and only if nothing was lost in that. -/
theorem decode_normalizes {b : Bytes} {m : Message} (h : decode b = .ok m) :
    decode (encode m) = .ok m ∧ (encode m).length ≤ b.length ∧ (Lossless b ↔ encode m = b) := by
  have hcarries := decode_eq_ok_iff_carries.mp h
  refine ⟨?_, length_encode_le hcarries, encode_eq_of_lossless h, ?_⟩
  · exact decode_eq_ok_iff_carries.mpr (carries_encode hcarries.wellFormed hcarries.has_place)
  · rintro rfl
    exact lossless_encode hcarries.wellFormed

/-- A message and two datagrams that carry it.  In the first a number has a leading zero, an
unknown option is left out, so that the gap of the option behind it takes one byte more, and
a marker has nothing behind it. -/
theorem decode_normalizes_two :
    let m : Message := {
      type := .confirmable, code := .request .get, id := 7
      options := ⟨[⟨.etag, .octets [9]⟩, ⟨.contentFormat, .unsigned 50⟩, ⟨.size1, .unsigned 8⟩],
        by decide⟩ }
    let lossy : Bytes := [64, 1, 0, 7, 65, 9, 130, 0, 50, 208, 25, 161, 8, 255]
    let normal : Bytes := [64, 1, 0, 7, 65, 9, 129, 50, 209, 35, 8]
    decode lossy = .ok m ∧ decode normal = .ok m ∧ encode m = normal ∧ ¬ Lossless lossy ∧
      Lossless normal ∧ normal.length ≤ lossy.length := by
  intro m lossy normal
  have hlossy : decode lossy = .ok m := by decide +kernel
  have hnormal : decode normal = .ok m := by decide +kernel
  have hencode : encode m = normal := by decide
  obtain ⟨-, hlength, hiff⟩ := decode_normalizes hlossy
  refine ⟨hlossy, hnormal, hencode, fun h => ?_, ?_, ?_⟩
  · exact absurd (hiff.mp h) (by decide)
  · exact (decode_normalizes hnormal).2.2.mpr hencode
  · rwa [hencode] at hlength

end Coap.Datagram
