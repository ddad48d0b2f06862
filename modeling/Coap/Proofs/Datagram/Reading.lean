/-
# Reading follows the form

The reader of datagrams takes one byte after the other and stops at the first fault; the
form of a datagram is said without it.  The two agree: the reader finds a message exactly in
the admissible datagrams, and it finds the message that the datagram carries.  The reader
works in two passes, one for the run of options (`readBody_of_run`, `run_of_readBody`) and one
for what they mean (`keepOptions_eq_ok_iff`), and so does the proof.
-/
import Coap.Proofs.Datagram.Grammar
import Coap.Proofs.Message.Editing

namespace Coap.Datagram

/-! ## Amounts -/

/-- An amount has one written form. -/
theorem Amount.eq_nibbleOf {nibble n : Nat} {bytes : Bytes} (h : Amount nibble bytes n) :
    nibble = nibbleOf n ∧ bytes = extensionOf n := by
  cases h with
  | plain h => simp [nibbleOf, extensionOf, h]
  | byte b =>
    have hb := b.toNat_lt
    simp only [nibbleOf, extensionOf, if_neg (show ¬ b.toNat + 13 ≤ 12 by omega),
      if_pos (show b.toNat + 13 ≤ 268 by omega), Nat.add_sub_cancel, true_and]
    rw [UInt8.ofNat_toNat]
  | word high low =>
    have hh := high.toNat_lt
    have hl := low.toNat_lt
    have htwo : Bytes.ofUInt16 (UInt16.ofNat (high.toNat * 256 + low.toNat)) = [high, low] :=
      Bytes.ofUInt16_toUInt16 high low
    simp only [nibbleOf, extensionOf,
      if_neg (show ¬ high.toNat * 256 + low.toNat + 269 ≤ 12 by omega),
      if_neg (show ¬ high.toNat * 256 + low.toNat + 269 ≤ 268 by omega), Nat.add_sub_cancel,
      htwo, true_and]

/-- The nibble 15 stands for no amount. -/
theorem Amount.nibble_le {nibble n : Nat} {bytes : Bytes} (h : Amount nibble bytes n) :
    nibble ≤ 14 := by
  cases h <;> omega

/-- Two bytes extend to no larger amount. -/
theorem Amount.le {nibble n : Nat} {bytes : Bytes} (h : Amount nibble bytes n) : n ≤ 65804 := by
  cases h with
  | plain h => omega
  | byte b =>
    have := b.toNat_lt
    omega
  | word high low =>
    have := high.toNat_lt
    have := low.toNat_lt
    omega

/-- Every amount up to the largest one that two bytes extend to is announced by its written
form. -/
theorem amount_nibbleOf {n : Nat} (h : n ≤ 65804) : Amount (nibbleOf n) (extensionOf n) n := by
  rw [nibbleOf, extensionOf]
  split
  · next h12 => exact .plain h12
  · split
    · next h12 h268 =>
      have := Amount.byte (UInt8.ofNat (n - 13))
      rwa [UInt8.toNat_ofNat_of_lt' (by simp only [UInt8.size]; omega),
        Nat.sub_add_cancel (by omega)] at this
    · next h12 h268 =>
      have hv : (UInt16.ofNat (n - 269)).toNat = n - 269 :=
        UInt16.toNat_ofNat_of_lt' (by simp only [UInt16.size]; omega)
      have := Amount.word (UInt8.ofNat ((n - 269) / 256)) (UInt8.ofNat (n - 269))
      rw [UInt8.toNat_ofNat', UInt8.toNat_ofNat',
        show (n - 269) / 256 % 2 ^ 8 * 256 + (n - 269) % 2 ^ 8 + 269 = n by omega] at this
      rwa [Bytes.ofUInt16, hv]

/-- **What is read as an amount** is its nibble with the bytes of an extension. -/
theorem readAmount_eq_ok_iff {nibble n : Nat} {bytes rest : Bytes} :
    readAmount nibble bytes = .ok (n, rest) ↔
      ∃ ext, bytes = ext ++ rest ∧ Amount nibble ext n := by
  constructor
  · intro h
    unfold readAmount at h
    split at h
    · next h12 =>
      cases h
      exact ⟨[], rfl, .plain h12⟩
    · split at h
      · next h13 =>
        subst h13
        split at h
        · next b tail =>
          cases h
          exact ⟨[b], rfl, .byte b⟩
        · cases h
      · split at h
        · next h14 =>
          subst h14
          split at h
          · next high low tail =>
            cases h
            refine ⟨[high, low], rfl, ?_⟩
            rw [Bytes.toNat_toUInt16]
            exact .word high low
          · cases h
        · cases h
  · rintro ⟨ext, rfl, h⟩
    cases h with
    | plain h => simp [readAmount, h]
    | byte b => rfl
    | word high low => simp [readAmount, Bytes.toNat_toUInt16]

/-! ## Runs of options -/

/-- A step after another one succeeds if both do. -/
theorem bind_eq_ok_iff {ε α β : Type} {x : Except ε α} {f : α → Except ε β} {b : β} :
    x >>= f = .ok b ↔ ∃ a, x = .ok a ∧ f a = .ok b := by
  cases x with
  | error e => simp [bind, Except.bind]
  | ok a => simp [bind, Except.bind]

/-- What a step finds behind a byte that is no marker: always an option, never the end. -/
theorem nextOption_cons_eq_ok_iff {previous : Nat} {head : UInt8} {tail : Bytes}
    {found : OptionStep} (hhead : head ≠ payloadMarker) :
    nextOption previous (head :: tail) = .ok found ↔
      ∃ delta afterDelta length afterLength,
        readAmount (head.toNat / 16) tail = .ok (delta, afterDelta) ∧
        readAmount (head.toNat % 16) afterDelta = .ok (length, afterLength) ∧
        previous + delta ≤ 65535 ∧ length ≤ afterLength.length ∧
        found = .option (previous + delta) (afterLength.take length) (afterLength.drop length) := by
  simp only [nextOption, if_neg hhead, bind_eq_ok_iff, Prod.exists]
  constructor
  · rintro ⟨delta, afterDelta, hd, length, afterLength, hl, h⟩
    split at h
    · cases h
    · split at h
      · cases h
      · next hnumber hlong =>
        cases h
        exact ⟨delta, afterDelta, length, afterLength, hd, hl, by omega, by omega, rfl⟩
  · rintro ⟨delta, afterDelta, length, afterLength, hd, hl, hnumber, hlong, rfl⟩
    refine ⟨delta, afterDelta, hd, length, afterLength, hl, ?_⟩
    rw [if_neg (by omega), if_neg (by omega)]

/-- The options end with the bytes, or with the marker of a payload. -/
theorem nextOption_eq_finish_iff {previous : Nat} {bytes payload : Bytes} :
    nextOption previous bytes = .ok (.finish payload) ↔
      bytes = [] ∧ payload = [] ∨ bytes = payloadMarker :: payload := by
  cases bytes with
  | nil => simp [nextOption, eq_comm]
  | cons head tail =>
    by_cases hhead : head = payloadMarker
    · simp [nextOption, hhead]
    · rw [nextOption_cons_eq_ok_iff hhead]
      simp [hhead]

/-- An option is a head with two amounts, their extensions and the value. -/
theorem nextOption_eq_option_iff {previous number : Nat} {bytes value rest : Bytes} :
    nextOption previous bytes = .ok (.option number value rest) ↔
      ∃ head delta deltaBytes lengthBytes, Amount (head.toNat / 16) deltaBytes delta ∧
        Amount (head.toNat % 16) lengthBytes value.length ∧ number = previous + delta ∧
        number ≤ 65535 ∧ bytes = head :: (deltaBytes ++ lengthBytes ++ value ++ rest) := by
  constructor
  · intro h
    cases bytes with
    | nil => cases h
    | cons head tail =>
      have hhead : head ≠ payloadMarker := by
        rintro rfl
        simp [nextOption] at h
      obtain ⟨delta, afterDelta, length, afterLength, hd, hl, hnumber, hlong, hfound⟩ :=
        (nextOption_cons_eq_ok_iff hhead).mp h
      obtain ⟨deltaBytes, rfl, hdelta⟩ := readAmount_eq_ok_iff.mp hd
      obtain ⟨lengthBytes, rfl, hlength⟩ := readAmount_eq_ok_iff.mp hl
      cases hfound
      refine ⟨head, delta, deltaBytes, lengthBytes, hdelta, ?_, rfl, hnumber, ?_⟩
      · rwa [List.length_take_of_le hlong]
      · simp [List.append_assoc]
  · rintro ⟨head, delta, deltaBytes, lengthBytes, hdelta, hlength, rfl, hnumber, rfl⟩
    -- the marker has nibble 15, and no amount has
    have hhead : head ≠ payloadMarker := by
      intro h
      have := hdelta.nibble_le
      rw [h] at this
      exact absurd this (by decide)
    rw [nextOption_cons_eq_ok_iff hhead]
    refine ⟨delta, lengthBytes ++ (value ++ rest), value.length, value ++ rest,
      readAmount_eq_ok_iff.mpr ⟨deltaBytes, by simp, hdelta⟩,
      readAmount_eq_ok_iff.mpr ⟨lengthBytes, rfl, hlength⟩, hnumber, by simp, ?_⟩
    rw [List.take_left, List.drop_left]

/-- **The first pass**: the reader finds the options and the payload of a run. -/
theorem readBody_of_run {previous : Nat} {bytes : Bytes} {options : List RawOption}
    {tail : Option Bytes} (h : OptionRun previous bytes options tail) :
    readBody previous bytes = ⟨options, .ok (tail.getD [])⟩ := by
  induction h with
  | finish previous =>
    unfold readBody
    rfl
  | marker previous payload =>
    unfold readBody
    rfl
  | @option previous delta head deltaBytes lengthBytes value rest _ _ hdelta hlength hnumber _ ih =>
    have hnext : nextOption previous (head :: (deltaBytes ++ lengthBytes ++ value ++ rest))
        = .ok (.option (previous + delta) value rest) :=
      nextOption_eq_option_iff.mpr
        ⟨head, delta, deltaBytes, lengthBytes, hdelta, hlength, rfl, hnumber, rfl⟩
    unfold readBody
    split
    · next he =>
      rw [hnext] at he
      cases he
    · next he =>
      rw [hnext] at he
      cases he
    · next number value rest he =>
      rw [hnext] at he
      cases he
      rw [ih]

/-- What the reader of the body gives is a run of options. -/
theorem run_of_readBody {previous : Nat} {bytes : Bytes} {payload : Bytes}
    (h : (readBody previous bytes).ending = .ok payload) :
    ∃ tail, OptionRun previous bytes (readBody previous bytes).options tail ∧
      tail.getD [] = payload := by
  fun_induction readBody previous bytes with
  | case1 previous bytes fault he => cases h
  | case2 previous bytes found he =>
    cases h
    rcases nextOption_eq_finish_iff.mp he with ⟨rfl, rfl⟩ | rfl
    · exact ⟨none, .finish _, rfl⟩
    · exact ⟨some payload, .marker _ _, rfl⟩
  | case3 previous bytes number value rest he body ih =>
    obtain ⟨tail, hrun, htail⟩ := ih h
    obtain ⟨head, delta, deltaBytes, lengthBytes, hdelta, hlength, rfl, hnumber, rfl⟩ :=
      nextOption_eq_option_iff.mp he
    exact ⟨tail, .option hdelta hlength hnumber hrun, htail⟩

/-! ## The second pass: options and entries -/

/-- An option is repeated if one of its number is there and there may be only one. -/
theorem repeated_iff {kept : Options} {raw : RawOption} :
    kept.has raw.number ∧ !raw.number.isRepeatable ↔
      ¬ raw.number.isRepeatable ∧ ∃ x ∈ kept.entries, x.number = raw.number := by
  simp [Options.has, and_comm]

/-- What the reader makes of an option: a value, nothing because the value goes without
saying, or nothing because the option is unacceptable. -/
theorem readOption_cases (kept : Options) (raw : RawOption) :
    (∃ value, readOption kept raw = .ok value ∧ ¬ Unacceptable kept.entries raw ∧
      Yields kept.entries raw [⟨raw.number, value⟩]) ∨
    (readOption kept raw = .error (.impliedValue raw.number) ∧
      ¬ Unacceptable kept.entries raw ∧ Yields kept.entries raw []) ∨
    ∃ fault, readOption kept raw = .error fault ∧ (∀ n, fault ≠ .impliedValue n) ∧
      Unacceptable kept.entries raw ∧ Yields kept.entries raw [] := by
  by_cases hrep : kept.has raw.number ∧ !raw.number.isRepeatable
  · have hbad : Unacceptable kept.entries raw :=
      .repeated (repeated_iff.mp hrep).1 (repeated_iff.mp hrep).2
    refine .inr (.inr ⟨.notRepeatable raw.number, ?_, by simp, hbad, .nothing (.inl hbad)⟩)
    rw [readOption, if_pos hrep]
  · have hread : readOption kept raw = OptionValue.decode raw.number raw.bytes := by
      rw [readOption, if_neg hrep]
    have hgood : ¬ OptionValue.Malformed raw.number raw.bytes →
        ¬ Unacceptable kept.entries raw := by
      rintro hm (h | ⟨hsingle, h⟩)
      · exact hm h
      · exact hrep (repeated_iff.mpr ⟨hsingle, h⟩)
    rw [hread]
    rcases OptionValue.decode_cases raw.number raw.bytes with
      ⟨value, hd, hm, hv, hi⟩ | ⟨hd, hm, hv⟩ | ⟨fault, hd, hf, hm⟩
    · exact .inl ⟨value, hd, hgood hm, .entry (hgood hm) hv hi⟩
    · exact .inr (.inl ⟨hd, hgood hm, .nothing (.inr hv)⟩)
    · exact .inr (.inr ⟨fault, hd, hf, .malformed hm, .nothing (.inl (.malformed hm))⟩)

/-- An option yields one result at most. -/
theorem Yields.unique {kept new new' : List OptionEntry} {raw : RawOption}
    (h : Yields kept raw new) (h' : Yields kept raw new') : new = new' := by
  cases h with
  | entry hgood hvalue hsaid =>
    cases h' with
    | entry _ hvalue' _ => rw [hvalue.unique hvalue']
    | nothing hout =>
      rcases hout with hbad | ⟨value, hvalue', himplied⟩
      · exact absurd hbad hgood
      · exact absurd (hvalue'.unique hvalue ▸ himplied) hsaid
  | nothing hout =>
    cases h' with
    | entry hgood hvalue hsaid =>
      rcases hout with hbad | ⟨value, hvalue', himplied⟩
      · exact absurd hbad hgood
      · exact absurd (hvalue'.unique hvalue ▸ himplied) hsaid
    | nothing => rfl

/-- What is kept of the options is what the first one yields and what is kept of the others. -/
theorem keeps_cons_iff {kept new entries : List OptionEntry} {raw : RawOption}
    {options : List RawOption} (h : Yields kept raw new) :
    Keeps kept (raw :: options) entries ↔
      ∃ later, entries = new ++ later ∧ Keeps (kept ++ new) options later := by
  constructor
  · intro hk
    cases hk with
    | next hfirst hrest =>
      rw [hfirst.unique h] at hrest ⊢
      exact ⟨_, rfl, hrest⟩
  · rintro ⟨later, rfl, hrest⟩
    exact .next h hrest

/-- The same holds for all that is kept in the end. -/
theorem exists_keeps_cons_iff {kept new all : List OptionEntry} {raw : RawOption}
    {options : List RawOption} (h : Yields kept raw new) :
    (∃ entries, Keeps kept (raw :: options) entries ∧ all = kept ++ entries) ↔
      ∃ entries, Keeps (kept ++ new) options entries ∧ all = kept ++ new ++ entries := by
  constructor
  · rintro ⟨entries, hk, rfl⟩
    obtain ⟨later, rfl, hrest⟩ := (keeps_cons_iff h).mp hk
    exact ⟨later, hrest, (List.append_assoc ..).symm⟩
  · rintro ⟨later, hrest, rfl⟩
    exact ⟨new ++ later, .next h hrest, List.append_assoc ..⟩

/-- Where there are no options, none is unacceptable. -/
theorem criticalAcceptable_nil (kept : List OptionEntry) : CriticalAcceptable kept [] := by
  intro before raw after entries h
  cases before <;> cases h

/-- Options are acceptable if the first one is and then the others are. -/
theorem criticalAcceptable_cons_iff {kept new : List OptionEntry} {raw : RawOption}
    {options : List RawOption} (h : Yields kept raw new) :
    CriticalAcceptable kept (raw :: options) ↔
      (raw.number.isCritical → ¬ Unacceptable kept raw) ∧
        CriticalAcceptable (kept ++ new) options := by
  constructor
  · intro hc
    constructor
    · have := hc [] raw options [] rfl (.done kept)
      rwa [List.append_nil] at this
    · rintro before raw' after entries rfl hk
      have := hc (raw :: before) raw' after (new ++ entries) rfl (.next h hk)
      rwa [← List.append_assoc] at this
  · rintro ⟨hfirst, hrest⟩ before raw' after entries heq hk
    cases before with
    | nil =>
      cases heq
      cases hk
      rwa [List.append_nil]
    | cons _ before =>
      cases heq
      obtain ⟨later, rfl, hbefore⟩ := (keeps_cons_iff h).mp hk
      rw [← List.append_assoc]
      exact hrest before raw' after later rfl hbefore

/-- **The second pass**: options in ascending order are kept as the form of a datagram says,
unless the message is a request in which one that has to be understood is unacceptable. -/
theorem keepOptions_eq_ok_iff {isRequest : Bool} {kept o : Options} {options : List RawOption}
    (hkept : ∀ x ∈ kept.entries, ∀ raw ∈ options, x.number.toNat ≤ raw.number.toNat)
    (hoptions : options.Pairwise fun a b => a.number.toNat ≤ b.number.toNat) :
    keepOptions isRequest kept options = .ok o ↔
      (∃ entries, Keeps kept.entries options entries ∧ o.entries = kept.entries ++ entries) ∧
        (isRequest → CriticalAcceptable kept.entries options) := by
  -- the reader carries the options kept so far, so they vary along the induction
  induction options generalizing kept with
  | nil =>
    rw [keepOptions]
    constructor
    · intro h
      cases h
      exact ⟨⟨[], .done _, (List.append_nil _).symm⟩, fun _ => criticalAcceptable_nil _⟩
    · rintro ⟨⟨entries, hk, he⟩, -⟩
      cases hk
      rw [Options.eq_of_entries (he.trans (List.append_nil _))]
  | cons raw options ih =>
    obtain ⟨hraw, hrest⟩ := List.pairwise_cons.mp hoptions
    have hlater : ∀ x ∈ kept.entries, ∀ r ∈ options, x.number.toNat ≤ r.number.toNat :=
      fun x hx r hr => hkept x hx r (List.mem_cons_of_mem _ hr)
    rcases readOption_cases kept raw with
      ⟨value, hread, hgood, hy⟩ | ⟨hread, hgood, hy⟩ | ⟨fault, hread, hf, hbad, hy⟩
    · -- kept: in ascending order the place of the entry is at the end
      have hentries : (kept.add raw.number value).entries
          = kept.entries ++ [⟨raw.number, value⟩] :=
        Options.place_eq_append fun x hx => hkept x hx raw (List.mem_cons_self ..)
      simp only [keepOptions, hread]
      rw [ih ?_ hrest, hentries, exists_keeps_cons_iff hy, criticalAcceptable_cons_iff hy]
      · simp [hgood]
      · intro x hx r hr
        rw [hentries, List.mem_append, List.mem_singleton] at hx
        rcases hx with hx | rfl
        · exact hlater x hx r hr
        · exact hraw r hr
    · -- left out because it goes without saying, in a request as well
      simp only [keepOptions, hread]
      rw [ih hlater hrest, exists_keeps_cons_iff hy, criticalAcceptable_cons_iff hy]
      simp [hgood]
    · -- unacceptable: the end of a request if it had to be understood, and otherwise nothing
      have hskip : keepOptions isRequest kept (raw :: options) =
          if isRequest ∧ raw.number.isCritical then .error (raw.number, fault)
          else keepOptions isRequest kept options := by
        rw [keepOptions, hread]
        split
        · next h => cases h
        · next n h =>
          cases h
          exact absurd rfl (hf n)
        · next h =>
          cases h
          rfl
      rw [hskip, exists_keeps_cons_iff hy, criticalAcceptable_cons_iff hy]
      by_cases hstop : isRequest ∧ raw.number.isCritical
      · rw [if_pos hstop]
        constructor
        · intro h
          cases h
        · rintro ⟨-, h⟩
          exact absurd hbad ((h hstop.1).1 hstop.2)
      · rw [if_neg hstop, ih hlater hrest, List.append_nil]
        refine and_congr_right fun _ => ⟨fun h hr => ⟨fun hc => absurd ⟨hr, hc⟩ hstop, h hr⟩, ?_⟩
        exact fun h hr => (h hr).2

/-- In a response nothing stops the second pass. -/
theorem exists_keepOptions_eq_ok (kept : Options) (options : List RawOption) :
    ∃ o, keepOptions false kept options = .ok o := by
  induction options generalizing kept with
  | nil => exact ⟨kept, rfl⟩
  | cons raw options ih =>
    rw [keepOptions]
    split
    · exact ih _
    · exact ih _
    · exact ih kept

/-! ## The whole datagram -/

/-- The numbers in a run never go down. -/
theorem OptionRun.ascending {previous : Nat} {bytes : Bytes} {options : List RawOption}
    {tail : Option Bytes} (h : OptionRun previous bytes options tail) :
    (∀ raw ∈ options, previous ≤ raw.number.toNat) ∧
      options.Pairwise fun a b => a.number.toNat ≤ b.number.toNat := by
  induction h with
  | finish => exact ⟨by simp, .nil⟩
  | marker => exact ⟨by simp, .nil⟩
  | option hdelta hlength hnumber hrest ih =>
    obtain ⟨hge, hasc⟩ := ih
    have hself := OptionNumber.toNat_ofNat (Nat.lt_succ_of_le hnumber)
    constructor
    · intro raw hraw
      rcases List.mem_cons.mp hraw with rfl | hraw
      · rw [hself]
        omega
      · have := hge raw hraw
        omega
    · refine List.pairwise_cons.mpr ⟨fun raw hraw => ?_, hasc⟩
      rw [hself]
      exact hge raw hraw

/-- Of a run the options are kept that the form allows. -/
theorem keepOptions_of_run (isRequest : Bool) {bytes : Bytes} {options : List RawOption}
    {tail : Option Bytes} {o : Options} (h : OptionRun 0 bytes options tail) :
    keepOptions isRequest .empty options = .ok o ↔
      Keeps [] options o.entries ∧ (isRequest → CriticalAcceptable [] options) := by
  rw [keepOptions_eq_ok_iff (by simp [Options.empty]) h.ascending.2]
  simp [Options.empty]

/-- **What is read as a body** is a run of options with a payload behind it. -/
theorem decodeBody_eq_ok_iff {type : MessageType} {code : Code} {id : MessageId} {token : Token}
    {bytes : Bytes} {m : Message} :
    decodeBody type code id token bytes = .ok m ↔
      ∃ options tail kept, OptionRun 0 bytes options tail ∧ Keeps [] options kept.entries ∧
        (code.isRequest → CriticalAcceptable [] options) ∧
        m = { type, code, id, token, options := kept, payload := tail.getD [] } := by
  constructor
  · intro h
    rw [decodeBody] at h
    split at h
    · cases h
    · next kept hkept =>
      split at h
      · cases h
      · next payload hpayload =>
        cases h
        obtain ⟨tail, hrun, rfl⟩ := run_of_readBody hpayload
        obtain ⟨hk, hc⟩ := (keepOptions_of_run _ hrun).mp hkept
        exact ⟨_, tail, kept, hrun, hk, hc, rfl⟩
  · rintro ⟨options, tail, kept, hrun, hk, hc, rfl⟩
    have hkept := (keepOptions_of_run code.isRequest hrun).mpr ⟨hk, hc⟩
    simp only [decodeBody, readBody_of_run hrun, hkept]

/-- The empty code is zero. -/
theorem isEmpty_iff {code : UInt8} : (⟨code⟩ : Code).isEmpty ↔ code = 0 := by
  simp [Code.isEmpty, Code.empty]

/-- A token is its bytes. -/
theorem ofBytes?_eq_some_iff {bytes : Bytes} {token : Token} :
    Token.ofBytes? bytes = some token ↔ token.bytes = bytes := by
  constructor
  · intro h
    rw [Token.ofBytes?] at h
    split at h
    · cases h
      rfl
    · cases h
  · rintro rfl
    exact Token.ofBytes?_bytes token

/-- Bytes that are long enough have a token of a given length in front in one way. -/
theorem exists_token_iff {length : Nat} {rest : Bytes} {P : Token → Bytes → Prop}
    (hmax : length ≤ maxTokenLength) (hlong : length ≤ rest.length) :
    (∃ (token : Token) (body : Bytes), rest = token.bytes ++ body ∧
        token.bytes.length = length ∧ P token body) ↔
      P ⟨rest.take length, Nat.le_trans (List.length_take_le ..) hmax⟩ (rest.drop length) := by
  constructor
  · rintro ⟨⟨bytes, hbytes⟩, body, rfl, hlen, h⟩
    have htake : (bytes ++ body).take length = bytes := List.take_left' hlen
    have hdrop : (bytes ++ body).drop length = body := List.drop_left' hlen
    simp only [htake, hdrop]
    exact h
  · intro h
    exact ⟨_, _, (List.take_append_drop ..).symm, List.length_take_of_le hlong, h⟩

/-- The checks of the header, and what is left to read after it. -/
theorem decode_cons_eq_ok_iff {first code high low : UInt8} {rest : Bytes} {m : Message} :
    decode (first :: code :: high :: low :: rest) = .ok m ↔
      first.toNat / 64 = 1 ∧ first.toNat % 16 ≤ 8 ∧
        (code = 0 ∧ MessageType.ofBits (first.toNat / 16) ≠ .nonConfirmable ∧
            m = .bare (.ofBits (first.toNat / 16)) (Bytes.toUInt16 high low) ∨
          code ≠ 0 ∧ ∃ (token : Token) (body : Bytes), rest = token.bytes ++ body ∧
            token.bytes.length = first.toNat % 16 ∧
            decodeBody (.ofBits (first.toNat / 16)) ⟨code⟩ (Bytes.toUInt16 high low) token body
              = .ok m) := by
  simp only [decode]
  -- one check after the other; each that fails makes both sides false
  by_cases hversion : first.toNat / 64 = 1
  · rw [if_neg (show ¬ first.toNat / 64 ≠ version from not_not.mpr hversion)]
    by_cases htoken : first.toNat % 16 ≤ 8
    · rw [if_neg (show ¬ first.toNat % 16 > maxTokenLength from not_lt.mpr htoken)]
      by_cases hcode : code = 0
      · rw [if_pos (isEmpty_iff.mpr hcode)]
        by_cases htype : MessageType.ofBits (first.toNat / 16) = .nonConfirmable
        · simp [hcode, htype]
        · simp [hversion, htoken, hcode, htype, eq_comm]
      · rw [if_neg (fun h => hcode (isEmpty_iff.mp h))]
        simp only [hversion, htoken, hcode, ne_eq, not_false_eq_true, true_and, false_and,
          false_or]
        by_cases hlong : first.toNat % 16 ≤ rest.length
        · have hmax : first.toNat % 16 ≤ maxTokenLength := htoken
          have htok : Token.ofBytes? (rest.take (first.toNat % 16))
              = some ⟨rest.take (first.toNat % 16), Nat.le_trans (List.length_take_le ..) hmax⟩ :=
            ofBytes?_eq_some_iff.mpr rfl
          rw [if_neg (not_lt.mpr hlong), exists_token_iff hmax hlong, htok]
        · rw [if_pos (not_le.mp hlong)]
          constructor
          · intro h
            cases h
          · rintro ⟨token, body, rfl, hlen, -⟩
            rw [List.length_append] at hlong
            omega
    · rw [if_pos (show first.toNat % 16 > maxTokenLength from not_le.mp htoken)]
      simp [htoken]
  · rw [if_pos (show first.toNat / 64 ≠ version from hversion)]
    simp [hversion]

/-- The reader finds the message that a datagram carries, and no other. -/
theorem decode_eq_ok_iff_carries {b : Bytes} {m : Message} :
    decode b = .ok m ↔ Carries b m := by
  constructor
  · intro h
    match b, h with
    | first :: code :: high :: low :: rest, h =>
      obtain ⟨hversion, htoken, ⟨rfl, htype, rfl⟩ | ⟨hcode, token, body, rfl, hlen, h⟩⟩ :=
        decode_cons_eq_ok_iff.mp h
      · exact .bare hversion htoken htype
      · obtain ⟨options, tail, kept, hrun, hk, hc, rfl⟩ := decodeBody_eq_ok_iff.mp h
        exact .full hversion hlen hcode hrun hk hc
  · intro h
    cases h with
    | bare hversion htoken htype =>
      exact decode_cons_eq_ok_iff.mpr ⟨hversion, htoken, .inl ⟨rfl, htype, rfl⟩⟩
    | @full _ _ _ _ token body _ _ _ hversion hlength hcode hbody hk hc =>
      have htoken := hlength ▸ token.length_le
      refine decode_cons_eq_ok_iff.mpr ⟨hversion, htoken, .inr ⟨hcode, token, body, rfl, hlength, ?_⟩⟩
      exact decodeBody_eq_ok_iff.mpr ⟨_, _, _, hbody, hk, hc, rfl⟩

/-- A datagram carries a message exactly if it is admissible. -/
theorem exists_carries_iff {b : Bytes} : (∃ m, Carries b m) ↔ Admissible b := by
  constructor
  · rintro ⟨m, h⟩
    cases h with
    | bare hversion htoken htype => exact .bare hversion htoken htype
    | @full _ _ _ _ token _ _ _ _ hversion hlength hcode hbody hk hc =>
      exact .full hversion (hlength ▸ token.length_le) hlength hcode hbody hc
  · intro h
    cases h with
    | bare hversion htoken htype => exact ⟨_, .bare hversion htoken htype⟩
    | @full _ _ _ _ token _ options _ hversion htoken hlength hcode hbody hc =>
      obtain ⟨kept, hkept⟩ := exists_keepOptions_eq_ok .empty options
      have hk := ((keepOptions_of_run false hbody).mp hkept).1
      let carried : Token := ⟨token, hlength.trans_le htoken⟩
      exact ⟨_, Carries.full hversion (show carried.bytes.length = _ from hlength) hcode hbody hk hc⟩

/-- **Reading follows the form**: the reader finds a message exactly in the admissible
datagrams, and it finds the message that the datagram carries. -/
theorem decode_follows_form (b : Bytes) :
    ((∃ m, decode b = .ok m) ↔ Admissible b) ∧ ∀ m, decode b = .ok m ↔ Carries b m :=
  ⟨by rw [← exists_carries_iff]; simp only [decode_eq_ok_iff_carries],
    fun _ => decode_eq_ok_iff_carries⟩

end Coap.Datagram
