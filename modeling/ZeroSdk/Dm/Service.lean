/-
The direct-message service and receiver: `DmService` (`open_conversation`,
`send_text`, `history`, `update_status` and what goes through it), the
receipt functions, and `DmReceiver::process_inbound_dm`.

Conversations and messages share `CF_CHAINS`: a conversation is under the 35
bytes of `dm:` + id, a message under the 55 bytes of `dm_msg:` +
conversation + id. Message ids, sector ids and clock readings are arguments;
`blake3` stands for the hash a conversation id is derived with.
-/
import ZeroSdk.Contacts.Store
import ZeroSdk.Dm.Types
import ZeroSdk.Storage.Outbox

namespace ZeroSdk

/-- `storage_key`. -/
def ConversationId.storageKey (c : ConversationId) : Bytes := Bytes.ascii ['d', 'm', ':'] ++ c.bytes.val

/-- `derive`: the hash of the two identities, the smaller first. -/
def ConversationId.derive (blake3 : Bytes → Arr 32) (a b : IdentityId) : ConversationId :=
  let (first, second) := if a.bytes ≤ b.bytes then (a.bytes, b.bytes) else (b.bytes, a.bytes)
  ⟨blake3 (first.val ++ second.val)⟩

namespace Dm

/-- The DM errors the modelled functions return. `codec` keeps the error
whose text the source takes. -/
inductive DmError
  | storage (e : StorageError)
  | contact (e : ContactError)
  | unknownConversation (id : ConversationId)
  | invalidStatusTransition (old new : MessageStatus)
  | contactNotFound (id : IdentityId)
  | messageNotFound (id : MessageId)
  | codec (e : Postcard.Error ⊕ RocksError)
  deriving DecidableEq

/-! ## Keys -/

/-- `MSG_KEY_PREFIX`, `b"dm_msg:"`. -/
def msgKeyPrefix : Bytes := Bytes.ascii ['d', 'm', '_', 'm', 's', 'g', ':']

def makeMsgKey (conversationId : ConversationId) (messageId : MessageId) : Bytes :=
  msgKeyPrefix ++ conversationId.bytes.val ++ messageId.bytes.val

def makeMsgPrefix (conversationId : ConversationId) : Bytes := msgKeyPrefix ++ conversationId.bytes.val

/-- The loop of `increment_bytes`, from the last byte: the bytes, and whether
the carry is still there. -/
def incrementLoop : Bytes → Bytes × Bool
  | [] => ([], true)
  | b :: l =>
    match incrementLoop l with
    | (l, false) => (b :: l, false)
    | (l, true) => if b < 0xFF then ((b + 1) :: l, false) else (0 :: l, true)

/-- `increment_bytes`: the bytes as a big-endian number, plus one; a carry
out of the first byte becomes a byte in front. -/
def incrementBytes (v : Bytes) : Bytes :=
  match incrementLoop v with
  | (l, false) => l
  | (l, true) => 1 :: l

/-! ## Payload bytes -/

theorem DmSectorPayload.enc_length_lt (p : DmSectorPayload) : (DmSectorPayload.codec.enc p).length < 2 ^ 64 := by
  have htext := p.text.len_lt
  have hlen := Postcard.varint_length_le 10 p.text.bytes.length
  have htime := Postcard.varint_length_le 10 p.createdAtMs.toNat
  simp only [codec, Postcard.iso, Postcard.pair, MessageId.codec, ConversationId.codec, IdentityId.codec,
    MachineId.codec, Postcard.array, Postcard.str, Postcard.u64, List.length_append, p.messageId.bytes.property,
    p.conversationId.bytes.property, p.senderIdentity.bytes.property, p.senderMachine.bytes.property]
  omega

theorem ReceiptPayload.enc_length_lt (r : ReceiptPayload) : (ReceiptPayload.codec.enc r).length < 2 ^ 64 := by
  have hstatus := Postcard.varint_length_le 5 r.status.toFin.val
  have htime := Postcard.varint_length_le 10 r.timestampMs.toNat
  simp only [codec, Postcard.iso, Postcard.pair, MessageId.codec, ConversationId.codec, IdentityId.codec,
    MachineId.codec, Postcard.array, MessageStatus.codec, Postcard.variant, Postcard.u64, List.length_append,
    r.messageId.bytes.property, r.conversationId.bytes.property, r.recipientIdentity.bytes.property,
    r.recipientMachine.bytes.property]
  omega

/-- `to_allocvec` of the payload. -/
def DmSectorPayload.toAllocvec (p : DmSectorPayload) : Vec UInt8 := ⟨DmSectorPayload.codec.enc p, p.enc_length_lt⟩

/-- `to_allocvec` of the receipt. -/
def ReceiptPayload.toAllocvec (r : ReceiptPayload) : Vec UInt8 := ⟨ReceiptPayload.codec.enc r, r.enc_length_lt⟩

/-! ## Receipts -/

/-- What `build_delivered_receipt` and `build_read_receipt` share. -/
def buildReceipt (status : MessageStatus) (messageId : MessageId) (conversationId : ConversationId)
    (recipientIdentity : IdentityId) (recipientMachine : MachineId) (nowMs : UInt64) : ReceiptPayload :=
  ⟨messageId, conversationId, recipientIdentity, recipientMachine, status, nowMs⟩

def buildDeliveredReceipt : MessageId → ConversationId → IdentityId → MachineId → (nowMs : UInt64) → ReceiptPayload :=
  buildReceipt .delivered

def buildReadReceipt : MessageId → ConversationId → IdentityId → MachineId → (nowMs : UInt64) → ReceiptPayload :=
  buildReceipt .read

/-- `decode_receipt`. -/
def decodeReceipt (bytes : Bytes) : Except DmError ReceiptPayload :=
  (Postcard.fromBytes ReceiptPayload.codec bytes).mapError fun e => .codec (.inl e)

/-- The outbox entry of a payload that is due at once. -/
def outboxEntry (sectorId : SectorId) (payload : Vec UInt8) (nowMs : UInt64) : OutboxEntry :=
  ⟨sectorId, payload, 0, nowMs, nowMs⟩

def enqueueReceipt (outbox : Outbox) (receipt : ReceiptPayload) (sectorId : SectorId) (nowMs : UInt64) :
    DbProg DmError SectorId := do
  (outbox.enqueue (outboxEntry sectorId receipt.toAllocvec nowMs)).mapErr .storage
  pure sectorId

/-! ## DmService -/

/-- `DmService`: the identity and machine it acts for, and its address book.
The database is the one its programs run on. -/
structure DmService where
  identity : IdentityId
  machineId : MachineId
  contacts : ContactStore
  deriving DecidableEq

def decodeConversation (b : Bytes) : Except DmError Conversation :=
  (Postcard.fromBytes Conversation.codec b).mapError fun e => .codec (.inl e)

def decodeMessage (b : Bytes) : Except DmError Message :=
  (Postcard.fromBytes Message.codec b).mapError fun e => .codec (.inl e)

/-- `size_of::<Message>()`: fields of 16, 32, 16, 16, 24, 1, 8 and 8 bytes,
aligned to 8. -/
def Message.size : Nat := 128

/-- `Vec::with_capacity(limit)` of messages does not overflow: they take at
most `isize::MAX` bytes. -/
def HasCapacity (limit : Nat) : Prop := limit * Message.size ≤ 2 ^ 63 - 1

instance (limit : Nat) : Decidable (HasCapacity limit) := inferInstanceAs (Decidable (_ ≤ _))

/-- The loop of `history`; `results` are the messages so far. -/
def historyLoop (pre seekKey : Bytes) (before : Option MessageId) (limit : Nat) (results : List Message) :
    List (Except RocksError (Bytes × Bytes)) → Except DmError (List Message)
  | [] => .ok results
  | .error e :: _ => .error (.codec (.inr e))
  | .ok (k, v) :: items =>
    -- stop once we leave the conversation prefix
    if !pre.isPrefixOf k then .ok results
    -- for the `before` case the seek key itself is excluded
    else if before.isSome && k == seekKey then historyLoop pre seekKey before limit results items
    else match decodeMessage v with
      | .error e => .error e
      | .ok msg =>
        if results.length + 1 ≥ limit then .ok (results ++ [msg])
        else historyLoop pre seekKey before limit (results ++ [msg]) items

namespace DmService

/-- `open_conversation`: the stored conversation with a contact, or a new one. -/
def openConversation (blake3 : Bytes → Arr 32) (s : DmService) (peer : IdentityId) : DbProg DmError Conversation := do
  let contact ← (s.contacts.getContact peer).mapErr .contact
  if contact.isNone then
    Prog.fail (.contactNotFound peer)
  else
    let convId := ConversationId.derive blake3 s.identity peer
    let key := convId.storageKey
    match ← (getRaw .chains key).mapErr .storage with
    | some bytes => Prog.lift (decodeConversation bytes)
    | none =>
      let conv : Conversation := ⟨convId, peer, none⟩
      (putRaw .chains key (Conversation.codec.enc conv)).mapErr .storage
      pure conv

def resumeConversation (conversationId : ConversationId) : DbProg DmError Conversation := do
  let bytes ← (getRaw .chains conversationId.storageKey).mapErr .storage
  let bytes ← Prog.okOr bytes (.unknownConversation conversationId)
  Prog.lift (decodeConversation bytes)

def saveConversation (conv : Conversation) : DbProg DmError Unit :=
  (putRaw .chains conv.conversationId.storageKey (Conversation.codec.enc conv)).mapErr .storage

def storeMessage (msg : Message) : DbProg DmError Unit :=
  (putRaw .chains (makeMsgKey msg.conversationId msg.id) (Message.codec.enc msg)).mapErr .storage

/-- `history`: up to `limit` messages before the cursor, by descending key;
`none` if it panics, with no room for the results. -/
def history (conversationId : ConversationId) (before : Option MessageId) (limit : Nat) :
    DbProg DmError (Option (List Message)) := do
  let pre := makeMsgPrefix conversationId
  let seekKey := match before with
    | some id => makeMsgKey conversationId id
    | none => incrementBytes pre
  let items ← iteratorCf .chains (.reverse seekKey)
  -- `Vec::with_capacity(limit)`
  if HasCapacity limit then
    let results ← Prog.lift (historyLoop pre seekKey before limit [] items)
    pure (some results)
  else
    pure none

def getMessage (conversationId : ConversationId) (messageId : MessageId) : DbProg DmError (Option Message) := do
  match ← getCf .chains (makeMsgKey conversationId messageId) with
  | .ok (some bytes) =>
    let msg ← Prog.lift (decodeMessage bytes)
    pure (some msg)
  | .ok none => pure none
  | .error e => Prog.fail (.codec (.inr e))

/-- `update_status`: only strictly forward. -/
def updateStatus (conversationId : ConversationId) (messageId : MessageId) (newStatus : MessageStatus)
    (nowMs : UInt64) : DbProg DmError Unit := do
  let msg ← getMessage conversationId messageId
  let msg ← Prog.okOr msg (.messageNotFound messageId)
  if !msg.status.isValidTransition newStatus then
    Prog.fail (.invalidStatusTransition msg.status newStatus)
  else
    storeMessage { msg with status := newStatus, statusUpdatedAtMs := nowMs }

def processReceipt (receipt : ReceiptPayload) (nowMs : UInt64) : DbProg DmError Unit :=
  updateStatus receipt.conversationId receipt.messageId receipt.status nowMs

/-- `mark_read`: `nowMs` is the second clock reading. -/
def markRead (s : DmService) (conversationId : ConversationId) (messageId : MessageId) (updatedMs nowMs : UInt64) :
    DbProg DmError ReceiptPayload := do
  updateStatus conversationId messageId .read updatedMs
  pure ⟨messageId, conversationId, s.identity, s.machineId, .read, nowMs⟩

def markReadAndEmit (s : DmService) (conversationId : ConversationId) (messageId : MessageId) (outbox : Outbox)
    (updatedMs nowMs : UInt64) (sectorId : SectorId) (enqueuedMs : UInt64) : DbProg DmError ReceiptPayload := do
  let receipt ← s.markRead conversationId messageId updatedMs nowMs
  let _ ← enqueueReceipt outbox receipt sectorId enqueuedMs
  pure receipt

/-- `send_text`; `messageId` and `sectorId` are the UUIDv7s drawn. -/
def sendText (s : DmService) (conversationId : ConversationId) (text : Str) (nowMs : UInt64) (messageId : MessageId)
    (sectorId : SectorId) : DbProg DmError MessageId := do
  let conv ← resumeConversation conversationId
  storeMessage ⟨messageId, conversationId, s.identity, s.machineId, text, .queued, nowMs, nowMs⟩
  let payload : DmSectorPayload := ⟨messageId, conversationId, s.identity, s.machineId, text, nowMs⟩
  (Outbox.new.enqueue (outboxEntry sectorId payload.toAllocvec nowMs)).mapErr .storage
  saveConversation { conv with lastSector := some sectorId }
  pure messageId

def acknowledgeSent (conversationId : ConversationId) (messageId : MessageId) (nowMs : UInt64) : DbProg DmError Unit :=
  updateStatus conversationId messageId .sent nowMs

end DmService

/-! ## DmReceiver -/

/-- `DmReceiver`: its service, and the recipient its receipts name. The
subscription and its dedupe cache are not part of processing a sector. -/
structure DmReceiver where
  service : DmService
  identity : IdentityId
  machineId : MachineId
  deriving DecidableEq

/-- The message an inbound payload is stored as. -/
def DmSectorPayload.toMessage (p : DmSectorPayload) (nowMs : UInt64) : Message :=
  ⟨p.messageId, p.conversationId, p.senderIdentity, p.senderMachine, p.text, .delivered, p.createdAtMs, nowMs⟩

def decodeDm (bytes : Bytes) : Except DmError DmSectorPayload :=
  (Postcard.fromBytes DmSectorPayload.codec bytes).mapError fun e => .codec (.inl e)

/-- `process_inbound_dm`; the clock is read for the message, for the receipt
and for its outbox entry. -/
def DmReceiver.processInboundDm (blake3 : Bytes → Arr 32) (r : DmReceiver) (sectorBytes : Bytes)
    (nowMs receiptMs : UInt64) (sectorId : SectorId) (enqueuedMs : UInt64) : DbProg DmError MessageId := do
  let payload ← Prog.lift (decodeDm sectorBytes)
  -- a storage error propagates, any other failure to open the conversation does not
  match ← (r.service.openConversation blake3 payload.senderIdentity).attempt with
  | .error (.storage e) => Prog.fail (.storage e)
  | _ => do
    DmService.storeMessage (payload.toMessage nowMs)
    let receipt := buildDeliveredReceipt payload.messageId payload.conversationId r.identity r.machineId receiptMs
    let _ ← enqueueReceipt Outbox.new receipt sectorId enqueuedMs
    pure payload.messageId

end Dm

end ZeroSdk
