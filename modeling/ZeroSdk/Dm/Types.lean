/-
Direct-message types: identifiers, messages, conversations, the two
payloads that go on the wire, and errors, with the postcard codec of what
is stored or sent.
-/
import ZeroSdk.Crypto.Aad
import ZeroSdk.Storage.Db

namespace ZeroSdk

/-- 32-byte conversation identifier derived from two identities. -/
structure ConversationId where
  bytes : Arr 32
  deriving DecidableEq

/-- Time-ordered message identifier wrapping a UUIDv7. -/
structure MessageId where
  bytes : Arr 16
  deriving DecidableEq

/-- Conversation ids compare as their bytes. -/
instance : LinearOrder ConversationId :=
  LinearOrder.lift' ConversationId.bytes fun a b h => by cases a; cases b; simp_all

/-- Message ids compare as their bytes. -/
instance : LinearOrder MessageId := LinearOrder.lift' MessageId.bytes fun a b h => by cases a; cases b; simp_all

namespace Dm
open Postcard (Codec)

/-- Monotonic message delivery status. -/
inductive MessageStatus
  | queued
  | sent
  | delivered
  | read
  deriving DecidableEq

/-- A single direct message. -/
structure Message where
  id : MessageId
  conversationId : ConversationId
  senderIdentity : IdentityId
  senderMachine : MachineId
  text : Str
  status : MessageStatus
  createdAtMs : UInt64
  statusUpdatedAtMs : UInt64
  deriving DecidableEq

/-- A 1:1 conversation handle. -/
structure Conversation where
  conversationId : ConversationId
  peerIdentity : IdentityId
  lastSector : Option SectorId
  deriving DecidableEq

/-- Sector content of a direct message, schema tag `zero.dm.v1`. -/
structure DmSectorPayload where
  messageId : MessageId
  conversationId : ConversationId
  senderIdentity : IdentityId
  senderMachine : MachineId
  text : Str
  createdAtMs : UInt64
  deriving DecidableEq

/-- Sector content of a delivery or read receipt, schema tag `zero.receipt.v1`. -/
structure ReceiptPayload where
  messageId : MessageId
  conversationId : ConversationId
  recipientIdentity : IdentityId
  recipientMachine : MachineId
  status : MessageStatus
  timestampMs : UInt64
  deriving DecidableEq

/-! ## Status order -/

def MessageStatus.toFin : MessageStatus → Fin 4
  | .queued => 0
  | .sent => 1
  | .delivered => 2
  | .read => 3

def MessageStatus.ofFin : Fin 4 → MessageStatus
  | 0 => .queued
  | 1 => .sent
  | 2 => .delivered
  | 3 => .read

theorem MessageStatus.ofFin_toFin (s : MessageStatus) : ofFin s.toFin = s := by cases s <;> rfl

/-- The derived order: Queued < Sent < Delivered < Read. -/
instance : LinearOrder MessageStatus :=
  LinearOrder.lift' MessageStatus.toFin (Function.LeftInverse.injective MessageStatus.ofFin_toFin)

/-- Strictly forward. -/
def MessageStatus.isValidTransition (current new : MessageStatus) : Bool := new > current

/-! ## Codecs -/

end Dm

def ConversationId.codec : Postcard.Codec ConversationId :=
  Postcard.iso (Postcard.array 32) (·.bytes) (⟨·⟩) fun _ => rfl

def MessageId.codec : Postcard.Codec MessageId :=
  Postcard.iso (Postcard.array 16) (·.bytes) (⟨·⟩) fun _ => rfl

namespace Dm
open Postcard (Codec)

def MessageStatus.codec : Codec MessageStatus :=
  Postcard.iso (Postcard.variant 4 Postcard.four_le) toFin ofFin ofFin_toFin

open Postcard in
def Message.codec : Codec Message :=
  iso (pair MessageId.codec (pair ConversationId.codec (pair IdentityId.codec (pair MachineId.codec
      (pair str (pair MessageStatus.codec (pair u64 u64)))))))
    (fun m => (m.id, m.conversationId, m.senderIdentity, m.senderMachine, m.text, m.status, m.createdAtMs,
      m.statusUpdatedAtMs))
    (fun (i, c, s, m, t, st, ca, su) => ⟨i, c, s, m, t, st, ca, su⟩) fun _ => rfl

open Postcard in
def Conversation.codec : Codec Conversation :=
  iso (pair ConversationId.codec (pair IdentityId.codec (option SectorId.codec)))
    (fun c => (c.conversationId, c.peerIdentity, c.lastSector)) (fun (c, p, s) => ⟨c, p, s⟩) fun _ => rfl

open Postcard in
def DmSectorPayload.codec : Codec DmSectorPayload :=
  iso (pair MessageId.codec (pair ConversationId.codec (pair IdentityId.codec (pair MachineId.codec (pair str u64)))))
    (fun p => (p.messageId, p.conversationId, p.senderIdentity, p.senderMachine, p.text, p.createdAtMs))
    (fun (i, c, s, m, t, ca) => ⟨i, c, s, m, t, ca⟩) fun _ => rfl

open Postcard in
def ReceiptPayload.codec : Codec ReceiptPayload :=
  iso (pair MessageId.codec (pair ConversationId.codec (pair IdentityId.codec (pair MachineId.codec
      (pair MessageStatus.codec u64)))))
    (fun r => (r.messageId, r.conversationId, r.recipientIdentity, r.recipientMachine, r.status, r.timestampMs))
    (fun (i, c, s, m, st, t) => ⟨i, c, s, m, st, t⟩) fun _ => rfl

end Dm

end ZeroSdk
