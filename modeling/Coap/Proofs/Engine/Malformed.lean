/-
# Datagrams that hold no message

A datagram without a message is answered from the datagram alone.  The reader goes from the header
over the token and the options to the payload, and by the place where it stops the ID, the token
and the type of the message are known or not (`found_of_decode`).  Whatever the state of the node
is, at most one message is sent then, and nothing is touched but the message IDs and the log
(`Answers`): no layer hears of the datagram, and neither does a handler or the sender of a request.
-/
import Coap.Proofs.Datagram.Reading
import Coap.Proofs.Engine.Elicited
import Coap.Proofs.Identifier.Issued

namespace Coap

namespace Datagram

variable {first code high low : UInt8} {rest bytes : Bytes} {type : MessageType} {id : MessageId}
  {token : Token} {isRequest : Bool} {number : OptionNumber} {fault : DecodeFault}

/-! ## Where the reader stops -/

/-- What is known when the reader has read the four bytes of the header, and stops later. -/
inductive Found (first code high low : UInt8) (rest : Bytes) : DecodeFault → Prop
  /-- The form is broken somewhere, and the ID is known. -/
  | form (cause : FormatFault) :
      Found first code high low rest (.malformed (some (Bytes.toUInt16 high low)) cause)
  /-- A request has an option that must be understood, and the token is known as well. -/
  | option {token : Token} {number : OptionNumber} (hrequest : (⟨code⟩ : Code).isRequest)
      (hodd : number.toNat % 2 = 1) (htoken : token.bytes = rest.take (first.toNat % 16))
      (cause : OptionFault) : Found first code high low rest
        (.badOption (Bytes.toUInt16 high low) token (.ofBits (first.toNat / 16)) number cause)

/-- Only an option that must be understood keeps a request from being read. -/
theorem critical_of_keepOptions {kept : Options} {options : List RawOption} {cause : OptionFault}
    (h : keepOptions isRequest kept options = .error (number, cause)) :
    isRequest = true ∧ number.toNat % 2 = 1 := by
  fun_induction keepOptions isRequest kept options with
  | case1 kept => cases h
  | case2 kept raw rest value hread ih => exact ih h
  | case3 kept raw rest n hread ih => exact ih h
  | case4 kept raw rest fault hread hfault hstop =>
    cases h
    exact ⟨hstop.1, by simpa [OptionNumber.isCritical] using hstop.2⟩
  | case5 kept raw rest fault hread hfault hpass ih => exact ih h

/-- Behind the token a datagram is at fault for its form, or a request for an option. -/
theorem fault_of_decodeBody {code : Code}
    (h : decodeBody type code id token bytes = .error fault) :
    (∃ cause, fault = .malformed (some id) cause) ∨
      ∃ number cause, fault = .badOption id token type number cause ∧ code.isRequest = true ∧
        number.toNat % 2 = 1 := by
  rw [decodeBody] at h
  split at h
  · next number cause hoptions =>
    cases h
    exact .inr ⟨number, cause, rfl, critical_of_keepOptions hoptions⟩
  · split at h
    · next cause hending =>
      cases h
      exact .inl ⟨cause, rfl⟩
    · cases h

/-- Of a datagram with a header of this version the ID is always known. -/
theorem found_of_decode (hversion : first.toNat / 64 = 1)
    (h : decode (first :: code :: high :: low :: rest) = .error fault) :
    Found first code high low rest fault := by
  simp only [decode] at h
  rw [if_neg (show ¬ first.toNat / 64 ≠ version from not_not.mpr hversion)] at h
  -- one check of the header after the other, each with a fault of the form
  split at h
  · cases h
    exact .form _
  · split at h
    · split at h
      · cases h
        exact .form _
      · cases h
    · split at h
      · cases h
        exact .form _
      · split at h
        · cases h
          exact .form _
        · next token htoken =>
          obtain ⟨cause, rfl⟩ | ⟨number, cause, rfl, hrequest, hodd⟩ := fault_of_decodeBody h
          · exact .form cause
          · exact .option hrequest hodd (ofBytes?_eq_some_iff.mp htoken) cause

/-- Of anything else not even the ID is known. -/
theorem decode_of_not_headed (h : bytes.length < 4 ∨ (bytes.headD 0).toNat / 64 ≠ 1) :
    ∃ cause, decode bytes = .error (.malformed none cause) := by
  match bytes, h with
  | first :: code :: high :: low :: rest, h =>
    have hversion : first.toNat / 64 ≠ version :=
      h.resolve_left (by simp only [List.length_cons]; omega)
    exact ⟨.unsupportedVersion (first.toNat / 64), by rw [decode, if_pos hversion]⟩
  | [], _ | [_], _ | [_, _], _ | [_, _, _], _ => exact ⟨.tooShort, rfl⟩

end Datagram

/-! ## Replies -/

/-- A message tells a peer which request had an unacceptable option, and what was wrong with it. -/
structure Message.RefusesOption (m : Message) (type : MessageType) (token : Token)
    (cause : OptionFault) : Prop where
  type : m.type = type
  code : m.code = .response .badOption
  token : m.token = token
  format : m.contentFormat? = some Failure.plainText
  payload : m.payload = Bytes.ofString cause.message

theorem Engine.refusesOption_badOptionReply (type : MessageType) (id : MessageId) (token : Token)
    (cause : OptionFault) : (badOptionReply type id token cause).RefusesOption type token cause :=
  ⟨rfl, rfl, rfl, rfl, rfl⟩

namespace Engine

variable {e e' : Engine} {peer : Endpoint} {m : Message} {ids : MessageIdPool} {id : MessageId}

/-- Messages for a peer are written to the log, as long as there is an outbox, and message IDs may
have been issued for them.  Nothing else changes, and nothing else is seen: no handler is called,
and nobody is told anything. -/
structure Answers (e : Engine) (peer : Endpoint) (messages : List Message) (ids : MessageIdPool)
    (e' : Engine) : Prop where
  state : e' = { e with outgoing := { e.outgoing with ids }, log := e'.log }
  history : e'.history =
    e.history ++ (e.posted peer messages).map fun x => ⟨e.now, .sent x.1 x.2⟩

namespace Answers

theorem refl (e : Engine) (peer : Endpoint) : Answers e peer [] e.outgoing.ids e where
  state := rfl
  history := by rw [posted_nil, List.map_nil, List.append_nil]

/-- A message is put into the outbox when IDs have been issued. -/
theorem transmit (e : Engine) (ids : MessageIdPool) (peer : Endpoint) (m : Message) :
    Answers e peer [m] ids
      ({ e with outgoing := { e.outgoing with ids } }.transmit peer m) := by
  by_cases hopen : e.outboxOpen = true
  · rw [Engine.transmit, if_pos (show _ = true from hopen)]
    constructor
    · rfl
    · rw [posted, if_pos hopen]
      exact List.reverse_cons
  · rw [Engine.transmit, if_neg (show ¬ _ = true from hopen)]
    constructor
    · rfl
    · rw [posted, if_neg hopen, List.map_nil, List.append_nil]
      rfl

/-- A non-confirmable message goes out under the ID that is issued for it. -/
theorem sendNumbered (htype : m.type = .nonConfirmable)
    (hissue : (e.outgoing.ids.issue e.now peer).1 = .ok id) :
    Answers e peer [{ m with id }] (e.outgoing.ids.issue e.now peer).2
      (e.sendNumbered peer m).2 := by
  have hsend : e.outgoing.send e.now peer m =
      (.ok { m with id }, { e.outgoing with ids := (e.outgoing.ids.issue e.now peer).2 }) := by
    simp only [Outgoing.send, htype, hissue]
  have hsent := transmit e (e.outgoing.ids.issue e.now peer).2 peer { m with id }
  unfold Engine.sendNumbered
  simp only [hsend]
  split
  · exact hsent
  · next hclosed =>
    rwa [Engine.transmit, if_neg hclosed] at hsent

/-- It does not go out if there is no ID for it. -/
theorem sendNumbered_of_exhausted {cause : Exhausted} (htype : m.type = .nonConfirmable)
    (hissue : (e.outgoing.ids.issue e.now peer).1 = .error cause) :
    Answers e peer [] (e.outgoing.ids.issue e.now peer).2 (e.sendNumbered peer m).2 := by
  have hsend : e.outgoing.send e.now peer m = (.error (.noMessageId cause),
      { e.outgoing with ids := (e.outgoing.ids.issue e.now peer).2 }) := by
    simp only [Outgoing.send, htype, hissue]
  unfold Engine.sendNumbered
  simp only [hsend]
  constructor
  · rfl
  · rw [posted_nil, List.map_nil, List.append_nil]
    rfl

end Answers

/-! ## Rejection -/

/-- How a request with an unacceptable option is answered.  A confirmable one is acknowledged with
the reply; for any other the reply gets an ID that is not reserved, if there is one; and what must
not carry a request is passed over. -/
def RefusesRequest (e : Engine) (peer : Endpoint) (type : MessageType) (id : MessageId)
    (token : Token) (cause : OptionFault) (e' : Engine) : Prop :=
  match type with
  | .confirmable => ∃ reply : Message, reply.RefusesOption .acknowledgement token cause ∧
      reply.id = id ∧ Answers e peer [reply] e.outgoing.ids e'
  | .nonConfirmable =>
    let (result, ids) := e.outgoing.ids.issue e.now peer
    match result with
    | .ok fresh => (∀ expiry, e.now < expiry → ¬ e.outgoing.ids.Reserves peer fresh expiry) ∧
        ∃ reply : Message, reply.RefusesOption .nonConfirmable token cause ∧ reply.id = fresh ∧
          Answers e peer [reply] ids e'
    | .error _ => 65536 ≤ ((e.outgoing.ids.issuedFor peer).retire e.now).inUse ∧
        Answers e peer [] ids e'
  | .acknowledgement | .reset => Answers e peer [] e.outgoing.ids e'

theorem refusesRequest_reject (e : Engine) (peer : Endpoint) (type : MessageType) (id : MessageId)
    (token : Token) (number : OptionNumber) (cause : OptionFault) :
    RefusesRequest e peer type id token cause
      (e.reject peer (.badOption id token type number cause)) := by
  have hreply (type : MessageType) := refusesOption_badOptionReply type id token cause
  cases type with
  | confirmable => exact ⟨_, hreply _, rfl, .transmit e e.outgoing.ids peer _⟩
  | nonConfirmable =>
    show match (e.outgoing.ids.issue e.now peer).1 with | .ok _ => _ | .error _ => _
    cases hissue : (e.outgoing.ids.issue e.now peer).1 with
    | ok fresh =>
      refine ⟨fun expiry hnow hreserved => hreserved.not_issued hnow hissue, _, ?_, rfl,
        .sendNumbered (hreply .nonConfirmable).type hissue⟩
      exact ⟨rfl, rfl, rfl, rfl, rfl⟩
    | error cause =>
      exact ⟨MessageIdPool.issue_eq_error_iff.mp ⟨cause, hissue⟩,
        .sendNumbered_of_exhausted (hreply .nonConfirmable).type hissue⟩
  | acknowledgement | reset => exact .refl e peer

/-- **Malformed datagrams are answered from the datagram alone.**  If it is too short for a header,
or of another version, nothing is sent.  Otherwise its ID is known: it is rejected by that ID for
its form, or refused as a request for an option with an odd number. -/
theorem answered_malformed {b : Bytes} {fault : Datagram.DecodeFault}
    (h : Datagram.decode b = .error fault) (e : Engine) (peer : Endpoint) :
    let e' := e.handle peer (Datagram.decode b)
    (b.length < 4 ∨ (b.headD 0).toNat / 64 ≠ 1 → Answers e peer [] e.outgoing.ids e') ∧
    ∀ first code high low rest, b = first :: code :: high :: low :: rest →
      first.toNat / 64 = 1 →
      let id := Bytes.toUInt16 high low
      let type := MessageType.ofBits (first.toNat / 16)
      (∃ cause, fault = .malformed (some id) cause) ∧
          Answers e peer [.resetOf id] e.outgoing.ids e' ∨
        ∃ token number cause, fault = .badOption id token type number cause ∧
          (⟨code⟩ : Code).isRequest ∧ number.toNat % 2 = 1 ∧
          token.bytes = rest.take (first.toNat % 16) ∧
          RefusesRequest e peer type id token cause e' := by
  intro e'
  have hreject : e' = e.reject peer fault := by
    show e.handle peer (Datagram.decode b) = _
    rw [h, handle]
  rw [hreject]
  constructor
  · intro hlost
    obtain ⟨cause, hcause⟩ := Datagram.decode_of_not_headed hlost
    rw [h] at hcause
    cases hcause
    exact .refl e peer
  · rintro first code high low rest rfl hversion
    cases Datagram.found_of_decode hversion h with
    | form cause => exact .inl ⟨⟨cause, rfl⟩, .transmit e e.outgoing.ids peer _⟩
    | option hrequest hodd htoken cause =>
      exact .inr ⟨_, _, cause, rfl, hrequest, hodd, htoken,
        refusesRequest_reject e peer _ _ _ _ cause⟩

/-- A non-confirmable request with an unknown option is refused under an ID of its own. -/
theorem answered_malformed_option :
    let chances : Chances := ⟨.constant 1000, .constant (.ofNat 100), .constant 0, .constant 0⟩
    let service : Service := fun _ => { reaction := .hold }
    let e := Engine.start .standard chances service []
    let b : Bytes := [0x51, 1, 0x12, 0x34, 5, 0x90]
    let token : Token := ⟨[5], by decide⟩
    let cause : OptionFault := .unrecognized (.ofNat 9)
    Datagram.decode b = .error (.badOption 0x1234 token .nonConfirmable (.ofNat 9) cause) ∧
    ∃ reply : Message, reply.RefusesOption .nonConfirmable token cause ∧ reply.id = 1000 ∧
      (e.handle ⟨0⟩ (Datagram.decode b)).history = [⟨0, .sent ⟨0⟩ reply⟩] := by
  intro chances service e b token cause
  have hfault : Datagram.decode b =
      .error (.badOption 0x1234 token .nonConfirmable (.ofNat 9) cause) := by decide +kernel
  refine ⟨hfault, ?_⟩
  obtain ⟨-, hheaded⟩ := answered_malformed hfault e ⟨0⟩
  obtain ⟨⟨_, hform⟩, -⟩ | ⟨_, _, _, hoption, -, -, -, hrefuses⟩ :=
    hheaded 0x51 1 0x12 0x34 [5, 0x90] rfl rfl
  · cases hform
  · injection hoption with _ htoken _ _ hcause
    subst htoken hcause
    obtain ⟨-, reply, hreply, hid, hanswers⟩ := hrefuses
    exact ⟨reply, hreply, hid, hanswers.history⟩

end Engine

end Coap
