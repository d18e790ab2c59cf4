/-
Group types: identifiers, roles, actions, manifests, messages, receipts and
errors, with the postcard codec of what is stored or sent.
-/
import ZeroSdk.Crypto.Aad
import ZeroSdk.Storage.Db

namespace ZeroSdk.Group
open Postcard (Codec)

/-- 16-byte group identifier (UUIDv7). -/
structure GroupId where
  bytes : Arr 16
  deriving DecidableEq

/-- 16-byte group message identifier (UUIDv7). -/
structure GroupMessageId where
  bytes : Arr 16
  deriving DecidableEq

/-- Role within a group, ordered by decreasing privilege. -/
inductive Role
  | owner
  | admin
  | moderator
  | member
  deriving DecidableEq

/-- Actions that can be performed within a group. -/
inductive GroupAction
  | sendMessage
  | addMember
  | removeMember
  | promoteDemoteMod
  | promoteDemoteAdmin
  | deleteGroup
  deriving DecidableEq

/-- A member entry inside a `GroupManifest`. -/
structure GroupMember where
  identityId : IdentityId
  machineId : MachineId
  role : Role
  addedAtMs : UInt64
  deriving DecidableEq

/-- The authoritative snapshot of group state. -/
structure GroupManifest where
  groupId : GroupId
  name : Str
  creator : IdentityId
  members : Vec GroupMember
  mlsEpoch : UInt64
  mlsStateBlob : Vec UInt8
  createdAtMs : UInt64
  updatedAtMs : UInt64
  deriving DecidableEq

/-- Message delivery status. -/
inductive GroupMessageStatus
  | sent
  | delivered
  | read
  deriving DecidableEq

/-- A decrypted group message. -/
structure GroupMessage where
  id : GroupMessageId
  groupId : GroupId
  senderIdentity : IdentityId
  senderMachine : MachineId
  text : Str
  mlsEpoch : UInt64
  createdAtMs : UInt64
  status : GroupMessageStatus
  deriving DecidableEq

/-- Receipt payload for group messages. -/
structure GroupReceiptPayload where
  messageId : GroupMessageId
  groupId : GroupId
  recipientIdentity : IdentityId
  recipientMachine : MachineId
  status : GroupMessageStatus
  timestampMs : UInt64
  deriving DecidableEq

/-- Errors produced by group operations. `mls` keeps the text the source puts
before the codec error's own. -/
inductive GroupError
  | storage (e : StorageError)
  | mls (text : String) (e : Postcard.Error)
  | permissionDenied (actor : Role) (action : GroupAction)
  | groupFull (size : Nat)
  | notAMember (id : IdentityId)
  | groupNotFound (id : GroupId)
  | invalidManifestUpdate
  | nameTooLong (len : Nat)
  deriving DecidableEq

/-! ## Codecs -/

def GroupId.codec : Codec GroupId := Postcard.iso (Postcard.array 16) (·.bytes) (⟨·⟩) fun _ => rfl

def GroupMessageId.codec : Codec GroupMessageId :=
  Postcard.iso (Postcard.array 16) (·.bytes) (⟨·⟩) fun _ => rfl

def Role.toFin : Role → Fin 4
  | .owner => 0
  | .admin => 1
  | .moderator => 2
  | .member => 3

def Role.ofFin : Fin 4 → Role
  | 0 => .owner
  | 1 => .admin
  | 2 => .moderator
  | 3 => .member

def Role.codec : Codec Role :=
  Postcard.iso (Postcard.variant 4 Postcard.four_le) Role.toFin Role.ofFin fun r => by cases r <;> rfl

def GroupMessageStatus.toFin : GroupMessageStatus → Fin 3
  | .sent => 0
  | .delivered => 1
  | .read => 2

def GroupMessageStatus.ofFin : Fin 3 → GroupMessageStatus
  | 0 => .sent
  | 1 => .delivered
  | 2 => .read

def GroupMessageStatus.codec : Codec GroupMessageStatus :=
  Postcard.iso (Postcard.variant 3 (by decide)) toFin ofFin fun s => by cases s <;> rfl

open Postcard in
def GroupMember.codec : Codec GroupMember :=
  iso (pair IdentityId.codec (pair MachineId.codec (pair Role.codec u64)))
    (fun m => (m.identityId, m.machineId, m.role, m.addedAtMs))
    (fun (i, m, r, t) => ⟨i, m, r, t⟩) fun _ => rfl

open Postcard in
def GroupManifest.codec : Codec GroupManifest :=
  iso (pair GroupId.codec (pair str (pair IdentityId.codec (pair (vec GroupMember.codec)
      (pair u64 (pair (vec u8) (pair u64 u64)))))))
    (fun m => (m.groupId, m.name, m.creator, m.members, m.mlsEpoch, m.mlsStateBlob, m.createdAtMs, m.updatedAtMs))
    (fun (g, n, c, ms, e, b, t, u) => ⟨g, n, c, ms, e, b, t, u⟩) fun _ => rfl

open Postcard in
def GroupMessage.codec : Codec GroupMessage :=
  iso (pair GroupMessageId.codec (pair GroupId.codec (pair IdentityId.codec (pair MachineId.codec
      (pair str (pair u64 (pair u64 GroupMessageStatus.codec)))))))
    (fun m => (m.id, m.groupId, m.senderIdentity, m.senderMachine, m.text, m.mlsEpoch, m.createdAtMs, m.status))
    (fun (i, g, s, m, t, e, c, st) => ⟨i, g, s, m, t, e, c, st⟩) fun _ => rfl

end ZeroSdk.Group
