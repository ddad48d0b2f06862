/-
# Transfers in blocks

A request body too large for one datagram arrives in blocks and is put together before the
request goes on; a response body too large for one datagram is kept, and the peer fetches
it block by block.  Peer and token tell the transfers apart.  A transfer that has rested for
longer than its lifetime is dropped when another one starts.
-/
import Coap.Config.Basic
import Coap.Exchange.Verdict
import Coap.Message.Typed

namespace Coap

/-- A request body that is being put together. -/
structure Upload where
  body : Bytes
  touched : Instant
deriving DecidableEq

/-- A response body that is being fetched: the response without body and without what
belongs to its first block only, and the body. -/
structure Download where
  template : Message
  body : Bytes
  touched : Instant
deriving DecidableEq

/-- The transfers under way. -/
structure Transfers where
  maxExponent : Nat
  maxBody? : Option Nat
  lifetime : Duration
  uploads : Table ConversationKey Upload := .empty
  downloads : Table ConversationKey Download := .empty

namespace Transfers

/-- No transfers. -/
def start (c : Config) : Transfers where
  maxExponent := c.maxBlockExponent
  maxBody? := c.maxBody?
  lifetime := c.transferLifetime

/-- The number of transfers under way. -/
def pending (s : Transfers) : Nat := s.uploads.size + s.downloads.size

/-- Whether a body of this length is over the limit. -/
def exceeds (s : Transfers) (length : Nat) : Bool :=
  match s.maxBody? with
  | some limit => limit < length
  | none => false

/-! ## Uploads -/

/-- The refusal of a body that is too large; it says how much is accepted. -/
def tooLarge (s : Transfers) (request : Message) (exponent : Nat) : Message :=
  let reply := request.replyTo .requestEntityTooLarge
  let preferred := (reply.setBlock1 ⟨0, false, exponent⟩).message
  let limit := s.maxBody?.getD 0
  if limit < UInt32.size then (preferred.setSize1 (UInt32.ofNat limit)).message else preferred

/-- The acknowledgement of a block that is not the last one. -/
def continueReply (request : Message) (block : Block) (exponent : Nat) : Message :=
  let e := (request.replyTo .continued).setBlock1 ⟨block.number, true, exponent⟩
  match e.fault? with
  | none => e.message
  | some _ => request.replyTo .internalServerError

/-- Drops the upload of a conversation. -/
def dropUpload (s : Transfers) (key : ConversationKey) : Transfers :=
  { s with uploads := s.uploads.erase key }

/-- Drops the uploads that have rested too long and starts a new one. -/
def startUpload (s : Transfers) (now : Instant) (key : ConversationKey) : Transfers :=
  { s with
    uploads := (s.uploads.filter fun _ u => now - u.touched < s.lifetime).insert key ⟨[], now⟩ }

/-- Puts a block behind what an upload holds.  The block must continue where that ends,
counted in blocks of its own size. -/
def append? (s : Transfers) (key : ConversationKey) (block : Block) (payload : Bytes) :
    Option Bytes :=
  match s.uploads.get? key with
  | none => none
  | some upload =>
    let held := upload.body.length
    if held % block.size = 0 ∧ held / block.size = block.number then
      some (upload.body ++ payload)
    else none

/-- One block of a request body: the last one completes the request, the others are
acknowledged.  Every refusal drops the upload. -/
def receiveBlock (s : Transfers) (now : Instant) (peer : Endpoint) (m : Message)
    (block : Block) : Verdict × Transfers :=
  let key : ConversationKey := ⟨peer, m.token⟩
  let exponent := min block.exponent s.maxExponent
  let announced := match m.size1? with
    | some size => s.exceeds size.toNat
    | none => false
  let length := m.payload.length
  if announced then (.reply (s.tooLarge m exponent), s.dropUpload key)
  else if block.size < length ∨ (block.more ∧ length ≠ block.size) then
    (.reply (m.replyTo .badRequest), s.dropUpload key)
  else
    let s := if block.number = 0 then s.startUpload now key else s
    match s.append? key block m.payload with
    | none => (.reply (m.replyTo .requestEntityIncomplete), s.dropUpload key)
    | some body =>
      if s.exceeds body.length then (.reply (s.tooLarge m exponent), s.dropUpload key)
      else if block.more then
        (.reply (continueReply m block exponent),
          { s with uploads := s.uploads.insert key ⟨body, now⟩ })
      else
        let e := m.setPayload body
        match e.fault? with
        | none => (.forward e.message, s.dropUpload key)
        | some _ => (.reply (m.replyTo .badRequest), s.dropUpload key)

/-! ## Downloads -/

/-- Drops the download of a conversation. -/
def dropDownload (s : Transfers) (key : ConversationKey) : Transfers :=
  { s with downloads := s.downloads.erase key }

/-- Gives a response the options of another one. -/
def copyOptions (source target : Message) : Message :=
  { target with
    options := source.options.entries.foldl (fun o x => o.add x.number x.value) target.options }

/-- The response with one slice of a body. -/
def sliceReply (request : Message) (d : Download) (slice : Block) : Edit :=
  let reply := request.replyTo (d.template.status?.getD .content)
  ((copyOptions d.template reply).setBlock2 slice).andThen fun m =>
    m.setPayload ((d.body.drop slice.offset).take slice.size)

/-- A request for a later block of a body.  The block may be asked for in a larger size than
is served: the answer then starts at the same place and is shorter.  The last slice ends the
download. -/
def serveBlock (s : Transfers) (now : Instant) (peer : Endpoint) (m : Message)
    (block : Block) : Verdict × Transfers :=
  let key : ConversationKey := ⟨peer, m.token⟩
  match s.downloads.get? key with
  | none => (.reply (m.replyTo .preconditionFailed), s)
  | some d =>
    let exponent := min block.exponent s.maxExponent
    let number := block.offset / Block.sizeOfExponent exponent
    let finish := number * Block.sizeOfExponent exponent + Block.sizeOfExponent exponent
    let slice : Block := ⟨number, finish < d.body.length, exponent⟩
    if d.body.length ≤ slice.offset then (.reply (m.replyTo .badOption), s)
    else
      let e := sliceReply m d slice
      match e.fault? with
      | some _ => (.reply (m.replyTo .internalServerError), s)
      | none =>
        (.reply e.message,
          if slice.more then
            { s with downloads := s.downloads.insert key { d with touched := now } }
          else s.dropDownload key)

/-- The first block of a response whose body is `payload`. -/
def firstSlice (m : Message) (payload : Bytes) (exponent : Nat) : Edit :=
  let sized : Edit :=
    if payload.length < UInt32.size then m.setSize2 (UInt32.ofNat payload.length) else ⟨m, none⟩
  (sized.andThen (·.setBlock2 ⟨0, true, exponent⟩)).andThen
    (·.setPayload (payload.take (Block.sizeOfExponent exponent)))

/-- Drops the downloads that have rested too long and starts a new one. -/
def startDownload (s : Transfers) (now : Instant) (key : ConversationKey) (d : Download) :
    Transfers :=
  { s with
    downloads := (s.downloads.filter fun _ d => now - d.touched < s.lifetime).insert key d }

/-! ## The layer -/

/-- A received message. -/
def receive (s : Transfers) (now : Instant) (peer : Endpoint) (m : Message) :
    Verdict × Transfers :=
  if m.isRequest then
    match m.block1?, m.block2? with
    | some block, _ => s.receiveBlock now peer m block
    | none, some block =>
      if block.number > 0 then s.serveBlock now peer m block
      else (.forward m, s.dropDownload ⟨peer, m.token⟩)
    | none, none => (.forward m, s)
  else (.forward m, s)

/-- A message to be sent, which may answer a request.  A response whose body does not fit
one block is cut, in the size the request asked for if that is smaller, and the whole body
is kept. -/
def send (s : Transfers) (now : Instant) (peer : Endpoint) (m : Message)
    (request? : Option Message) : Except SendFailure Message × Transfers :=
  if m.isResponse ∧ !m.options.has .block2 then
    let exponent := match request?.bind Message.block2? with
      | some block => min block.exponent s.maxExponent
      | none => s.maxExponent
    if m.payload.length ≤ Block.sizeOfExponent exponent then (.ok m, s)
    else
      let bare := { m with payload := [] }
      match (firstSlice bare m.payload exponent).toExcept with
      | .error fault => (.error (.notBuilt fault), s)
      | .ok first =>
        (.ok first, s.startDownload now ⟨peer, first.token⟩
          { template := bare.removeOption .observe, body := m.payload, touched := now })
  else (.ok m, s)

end Transfers

end Coap
