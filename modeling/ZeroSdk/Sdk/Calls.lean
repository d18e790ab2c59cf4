/-
The `zero-sdk` facade: the services wired to one store, and the clients that
use them. A call is any public function of a service that reaches the store,
with its arguments and the ids and clock readings it draws; a client is a
program over these calls, so that what it calls next may depend on what it
was answered (`Client`). Carried out on the store, a client is the program of
the operations of its calls (`Client.prog`).

`Call.touches` is the column families a call may reach, read off its code.
-/
import ZeroSdk.Dm.Paginate
import ZeroSdk.Group.Merge
import ZeroSdk.Group.Messages
import ZeroSdk.Inbox.Service
import ZeroSdk.Storage.Sectors
import ZeroSdk.Storage.Shared

namespace ZeroSdk.Sdk

/-- `SdkError`, as far as calls on the store return it; `list_contacts` has
an error of its own. -/
inductive SdkError
  | storage (e : StorageError)
  | dm (e : Dm.DmError)
  | group (e : Group.GroupError)
  | inbox (e : Inbox.InboxError)
  | contact (e : ContactError)
  | contactList (e : ListContactsError)
  deriving DecidableEq

/-! ## Calls, service by service -/

/-- `ContactStore`. -/
inductive ContactCall
  | addContact (store : ContactStore) (contact : Contact)
  | getContact (store : ContactStore) (id : IdentityId)
  | removeContact (store : ContactStore) (id : IdentityId)
  | listContacts (store : ContactStore)

abbrev ContactCall.Reply : ContactCall → Type
  | .addContact _ _ | .removeContact _ _ => Unit
  | .getContact _ _ => Option Contact
  | .listContacts _ => List Contact

def ContactCall.prog : (c : ContactCall) → DbProg SdkError c.Reply
  | .addContact store contact => (store.addContact contact).mapErr .contact
  | .getContact store id => (store.getContact id).mapErr .contact
  | .removeContact store id => (store.removeContact id).mapErr .contact
  | .listContacts store => store.listContacts.mapErr .contactList

/-- The sectors of `ZeroDb`. -/
inductive SectorCall
  | putSector (sector : Sector)
  | getSector (identityId machineId : Str) (sectorId : SectorId)
  | deleteSector (identityId machineId : Str) (sectorId : SectorId)
  | iterChain (identityId machineId : Str)

abbrev SectorCall.Reply : SectorCall → Type
  | .putSector _ | .deleteSector _ _ _ => Unit
  | .getSector _ _ _ => Option Sector
  | .iterChain _ _ => List Sector

def SectorCall.prog : (c : SectorCall) → DbProg SdkError c.Reply
  | .putSector sector => (ZeroDb.putSector sector).mapErr .storage
  | .getSector identityId machineId sectorId => (ZeroDb.getSector identityId machineId sectorId).mapErr .storage
  | .deleteSector identityId machineId sectorId => (ZeroDb.deleteSector identityId machineId sectorId).mapErr .storage
  | .iterChain identityId machineId => (ZeroDb.iterChain identityId machineId).mapErr .storage

/-- `Outbox`. -/
inductive OutboxCall
  | op (o : Outbox.Op)
  | count
  | dequeueDue (nowMs : UInt64)

abbrev OutboxCall.Reply : OutboxCall → Type
  | .op _ => Unit
  | .count => Nat
  | .dequeueDue _ => List OutboxEntry

def OutboxCall.prog : (c : OutboxCall) → DbProg SdkError c.Reply
  | .op o => o.prog.mapErr .storage
  | .count => Outbox.count.mapErr .storage
  | .dequeueDue nowMs => (Outbox.dequeueDue nowMs).mapErr .storage

/-- `DmService`, `DmReceiver`, and the functions on receipts and pages. -/
inductive DmCall
  | openConversation (s : Dm.DmService) (peer : IdentityId)
  | resumeConversation (conversationId : ConversationId)
  | saveConversation (conv : Dm.Conversation)
  | storeMessage (msg : Dm.Message)
  | history (conversationId : ConversationId) (before : Option MessageId) (limit : Nat)
  | paginateMessages (conversationId : ConversationId) (before : Option MessageId) (limit : Nat)
  | getMessage (conversationId : ConversationId) (messageId : MessageId)
  | updateStatus (conversationId : ConversationId) (messageId : MessageId) (newStatus : Dm.MessageStatus) (nowMs : UInt64)
  | processReceipt (receipt : Dm.ReceiptPayload) (nowMs : UInt64)
  | markRead (s : Dm.DmService) (conversationId : ConversationId) (messageId : MessageId) (updatedMs nowMs : UInt64)
  | markReadAndEmit (s : Dm.DmService) (conversationId : ConversationId) (messageId : MessageId) (outbox : Outbox)
    (updatedMs nowMs : UInt64) (sectorId : SectorId) (enqueuedMs : UInt64)
  | sendText (s : Dm.DmService) (conversationId : ConversationId) (text : Str) (nowMs : UInt64) (messageId : MessageId)
    (sectorId : SectorId)
  | acknowledgeSent (conversationId : ConversationId) (messageId : MessageId) (nowMs : UInt64)
  | enqueueReceipt (outbox : Outbox) (receipt : Dm.ReceiptPayload) (sectorId : SectorId) (nowMs : UInt64)
  | processInboundDm (r : Dm.DmReceiver) (sectorBytes : Bytes) (nowMs receiptMs : UInt64) (sectorId : SectorId)
    (enqueuedMs : UInt64)

abbrev DmCall.Reply : DmCall → Type
  | .openConversation _ _ | .resumeConversation _ => Dm.Conversation
  | .history _ _ _ | .paginateMessages _ _ _ => Option (List Dm.Message)
  | .getMessage _ _ => Option Dm.Message
  | .markRead _ _ _ _ _ | .markReadAndEmit _ _ _ _ _ _ _ _ => Dm.ReceiptPayload
  | .sendText _ _ _ _ _ _ | .processInboundDm _ _ _ _ _ _ => MessageId
  | .enqueueReceipt _ _ _ _ => SectorId
  | .saveConversation _ | .storeMessage _ | .updateStatus _ _ _ _ | .processReceipt _ _ | .acknowledgeSent _ _ _ => Unit

def DmCall.prog (blake3 : Bytes → Arr 32) : (c : DmCall) → DbProg SdkError c.Reply
  | .openConversation s peer => (s.openConversation blake3 peer).mapErr .dm
  | .resumeConversation c => (Dm.DmService.resumeConversation c).mapErr .dm
  | .saveConversation conv => (Dm.DmService.saveConversation conv).mapErr .dm
  | .storeMessage msg => (Dm.DmService.storeMessage msg).mapErr .dm
  | .history c before limit => (Dm.DmService.history c before limit).mapErr .dm
  | .paginateMessages c before limit => (Dm.paginateMessages c before limit).mapErr .dm
  | .getMessage c id => (Dm.DmService.getMessage c id).mapErr .dm
  | .updateStatus c id new nowMs => (Dm.DmService.updateStatus c id new nowMs).mapErr .dm
  | .processReceipt receipt nowMs => (Dm.DmService.processReceipt receipt nowMs).mapErr .dm
  | .markRead s c id updatedMs nowMs => (s.markRead c id updatedMs nowMs).mapErr .dm
  | .markReadAndEmit s c id outbox updatedMs nowMs sectorId enqueuedMs =>
    (s.markReadAndEmit c id outbox updatedMs nowMs sectorId enqueuedMs).mapErr .dm
  | .sendText s c text nowMs id sectorId => (s.sendText c text nowMs id sectorId).mapErr .dm
  | .acknowledgeSent c id nowMs => (Dm.DmService.acknowledgeSent c id nowMs).mapErr .dm
  | .enqueueReceipt outbox receipt sectorId nowMs => (Dm.enqueueReceipt outbox receipt sectorId nowMs).mapErr .dm
  | .processInboundDm r bytes nowMs receiptMs sectorId enqueuedMs =>
    (r.processInboundDm blake3 bytes nowMs receiptMs sectorId enqueuedMs).mapErr .dm

/-- The group functions. -/
inductive GroupCall
  | createGroup (label : Str) (founders : Vec IdentityId) (groupId : Group.GroupId) (ts : UInt64)
  | getManifest (groupId : Group.GroupId)
  | persistManifest (man : Group.GroupManifest)
  | loadManifest (groupId : Group.GroupId)
  | membership (groupId : Group.GroupId) (call : Group.Call)
  | sendMessage (groupId : Group.GroupId) (senderIdentity : IdentityId) (senderMachine : MachineId) (text : Str)
    (msgId : Group.GroupMessageId) (ts : UInt64)
  | receiveMessage (msg : Group.GroupMessage)
  | getMessage (groupId : Group.GroupId) (messageId : Group.GroupMessageId)
  | listMessages (groupId : Group.GroupId) (before : Option Group.GroupMessageId) (limit : Nat)
  | processReceipt (receipt : Group.GroupReceiptPayload)
  | markDelivered (groupId : Group.GroupId) (messageId : Group.GroupMessageId) (recipientIdentity : IdentityId)
    (recipientMachine : MachineId) (now : UInt64)
  | markRead (groupId : Group.GroupId) (messageId : Group.GroupMessageId) (recipientIdentity : IdentityId)
    (recipientMachine : MachineId) (now : UInt64)

abbrev GroupCall.Reply : GroupCall → Type
  | .createGroup _ _ _ _ => Group.GroupId
  | .getManifest _ => Group.GroupManifest
  | .loadManifest _ => Option Group.GroupManifest
  | .persistManifest _ | .membership _ _ => Unit
  | .sendMessage _ _ _ _ _ _ => Group.GroupMessageId
  | .receiveMessage _ | .processReceipt _ => Bool
  | .getMessage _ _ => Option Group.GroupMessage
  | .listMessages _ _ _ => List Group.GroupMessage
  | .markDelivered _ _ _ _ _ | .markRead _ _ _ _ _ => Option Group.GroupReceiptPayload

def GroupCall.prog : (c : GroupCall) → DbProg SdkError c.Reply
  | .createGroup label founders g ts => (Group.createGroup label founders g ts).mapErr .group
  | .getManifest g => (Group.getManifest g).mapErr .group
  | .persistManifest man => (Group.persistManifest man).mapErr .group
  | .loadManifest g => (Group.loadManifest g).mapErr .group
  | .membership g call => (call.prog g).mapErr .group
  | .sendMessage g sender machine text id ts => (Group.sendMessage g sender machine text id ts).mapErr .group
  | .receiveMessage msg => (Group.receiveMessage msg).mapErr .group
  | .getMessage g id => (Group.getMessage g id).mapErr .group
  | .listMessages g before limit => (Group.listMessages g before limit).mapErr .group
  | .processReceipt receipt => (Group.processReceipt receipt).mapErr .group
  | .markDelivered g id who machine now => (Group.markDelivered g id who machine now).mapErr .group
  | .markRead g id who machine now => (Group.markRead g id who machine now).mapErr .group

/-- `InboxService`. -/
inductive InboxCall
  | upsert (s : Inbox.InboxService) (entry : Inbox.InboxEntry)
  | markRead (s : Inbox.InboxService) (conversationRef : Inbox.ConversationRef)
  | listInbox (s : Inbox.InboxService) (limit : Option Nat)
  | unreadTotal (s : Inbox.InboxService)
  | stats (s : Inbox.InboxService)

abbrev InboxCall.Reply : InboxCall → Type
  | .upsert _ _ | .markRead _ _ => Unit
  | .listInbox _ _ => List Inbox.InboxEntry
  | .unreadTotal _ => UInt64
  | .stats _ => Inbox.InboxStats

def InboxCall.prog : (c : InboxCall) → DbProg SdkError c.Reply
  | .upsert s entry => (s.upsert entry).mapErr .inbox
  | .markRead s conversationRef => (s.markRead conversationRef).mapErr .inbox
  | .listInbox s limit => (s.listInbox limit).mapErr .inbox
  | .unreadTotal s => s.unreadTotal.mapErr .inbox
  | .stats s => s.stats.mapErr .inbox

/-! ## All of them -/

inductive Call
  | contact (c : ContactCall)
  | sector (c : SectorCall)
  | outbox (c : OutboxCall)
  | dm (c : DmCall)
  | group (c : GroupCall)
  | inbox (c : InboxCall)

abbrev Call.Reply : Call → Type
  | .contact c => c.Reply
  | .sector c => c.Reply
  | .outbox c => c.Reply
  | .dm c => c.Reply
  | .group c => c.Reply
  | .inbox c => c.Reply

def Call.prog (blake3 : Bytes → Arr 32) : (c : Call) → DbProg SdkError c.Reply
  | .contact c => c.prog
  | .sector c => c.prog
  | .outbox c => c.prog
  | .dm c => c.prog blake3
  | .group c => c.prog
  | .inbox c => c.prog

/-- The column families a direct-message call may reach. -/
def DmCall.touches : DmCall → List Cf
  | .openConversation _ _ => [.contacts, .chains]
  | .processInboundDm _ _ _ _ _ _ => [.contacts, .chains, .outbox]
  | .markReadAndEmit _ _ _ _ _ _ _ _ | .sendText _ _ _ _ _ _ => [.chains, .outbox]
  | .enqueueReceipt _ _ _ _ => [.outbox]
  | _ => [.chains]

/-- The column families a call may reach. -/
def Call.touches : Call → List Cf
  | .contact _ => [.contacts]
  | .sector _ => [.sectors]
  | .outbox _ => [.outbox]
  | .dm c => c.touches
  | .group _ => [.groups]
  | .inbox _ => [.inboxIndex]

/-! ## Clients -/

/-- The calls as a service: each answers with its reply or its error. -/
abbrev sdk : Sig := ⟨Call, fun c => Except SdkError c.Reply⟩

/-- A program over the calls. -/
abbrev Client (ε α : Type) := Prog sdk ε α

/-- The client's operations on the store. -/
def Client.prog {ε α : Type} (blake3 : Bytes → Arr 32) (p : Client ε α) : DbProg ε α :=
  p.expand fun c => (c.prog blake3).attempt

/-- A client that makes calls one after the other, whatever it is answered. -/
def Client.calls {ε : Type} : List Call → Client ε Unit
  | [] => .ret (.ok ())
  | c :: l => .op c fun _ => calls l

/-- The clients and the store after a schedule. Each turn is the next
operation of one client, and says how RocksDB fails at it if it does. -/
def runClients {ι ε α : Type} [DecidableEq ι] (blake3 : Bytes → Arr 32) (db : ZeroDb) (clients : ι → Client ε α)
    (sched : List (ι × Option Fault)) : Interleave.Pool rocks ι ε α ZeroDb :=
  Interleave.run (Interleave.Pool.turnWith ZeroDb.handleAt) ⟨fun i => (clients i).prog blake3, db⟩ sched

end ZeroSdk.Sdk
