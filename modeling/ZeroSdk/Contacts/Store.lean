/-
The address book: contacts in `CF_CONTACTS` under owner + contact, so that a
scan of the owner's 16 bytes lists the contacts of that owner.
-/
import ZeroSdk.Crypto.Aad
import ZeroSdk.Storage.Db

namespace ZeroSdk

/-- Public keys of a machine of a contact. -/
structure ContactMachineKey where
  machineId : MachineId
  x25519Public : Arr 32
  mlkemEncapKey : Vec UInt8
  ed25519Verifying : Arr 32
  mldsaVerifying : Vec UInt8
  epoch : Epoch
  deriving DecidableEq

/-- A contact in the address book. -/
structure Contact where
  identityId : IdentityId
  label : Str
  machineKeys : Vec ContactMachineKey
  lastSeenEpoch : Option Epoch
  addedAtMs : UInt64
  deriving DecidableEq

/-- The contact errors the modelled functions return. -/
inductive ContactError
  | storage (e : StorageError)
  | labelTooLong (len : Nat)
  | codec (e : Postcard.Error)
  deriving DecidableEq

/-- The errors of `list_contacts`: a RocksDB error is a `Codec` error there,
with the text of the one or the other. -/
inductive ListContactsError
  | codec (e : Postcard.Error ⊕ RocksError)
  deriving DecidableEq

open Postcard in
def ContactMachineKey.codec : Codec ContactMachineKey :=
  iso (pair MachineId.codec (pair (array 32) (pair (vec u8) (pair (array 32) (pair (vec u8) Epoch.codec)))))
    (fun k => (k.machineId, k.x25519Public, k.mlkemEncapKey, k.ed25519Verifying, k.mldsaVerifying, k.epoch))
    (fun (m, x, e, d, l, t) => ⟨m, x, e, d, l, t⟩) fun _ => rfl

open Postcard in
def Contact.codec : Codec Contact :=
  iso (pair IdentityId.codec (pair str (pair (vec ContactMachineKey.codec) (pair (option Epoch.codec) u64))))
    (fun c => (c.identityId, c.label, c.machineKeys, c.lastSeenEpoch, c.addedAtMs))
    (fun (i, l, k, e, t) => ⟨i, l, k, e, t⟩) fun _ => rfl

/-- `ContactStore`: the owner it is bound to. -/
structure ContactStore where
  owner : IdentityId
  deriving DecidableEq

namespace ContactStore

/-- `make_key`. -/
def makeKey (owner contact : IdentityId) : Bytes := owner.bytes.val ++ contact.bytes.val

/-- `owner_prefix`. -/
def ownerPrefix (owner : IdentityId) : Bytes := owner.bytes.val

def addContact (store : ContactStore) (contact : Contact) : DbProg ContactError Unit :=
  if contact.label.bytes.length > 64 then
    Prog.fail (.labelTooLong contact.label.bytes.length)
  else
    (putRaw .contacts (makeKey store.owner contact.identityId) (Contact.codec.enc contact)).mapErr .storage

def getContact (store : ContactStore) (id : IdentityId) : DbProg ContactError (Option Contact) := do
  match ← (getRaw .contacts (makeKey store.owner id)).attempt with
  | .ok (some bytes) =>
    let contact ← Prog.lift ((Postcard.fromBytes Contact.codec bytes).mapError .codec)
    pure (some contact)
  | .ok none => pure none
  | .error e => Prog.fail (.storage e)

def removeContact (store : ContactStore) (id : IdentityId) : DbProg ContactError Unit :=
  (deleteRaw .contacts (makeKey store.owner id)).mapErr .storage

/-- The loop of `list_contacts`: stops at the first key of another owner. -/
def listContactsLoop (pre : Bytes) :
    List (Except RocksError (Bytes × Bytes)) → Except ListContactsError (List Contact)
  | [] => .ok []
  | .error e :: _ => .error (.codec (.inr e))
  | .ok (key, value) :: items =>
    if !pre.isPrefixOf key then .ok []
    else match Postcard.fromBytes Contact.codec value with
      | .error e => .error (.codec (.inl e))
      | .ok contact => (listContactsLoop pre items).map (contact :: ·)

def listContacts (store : ContactStore) : DbProg ListContactsError (List Contact) := do
  let pre := ownerPrefix store.owner
  let items ← iteratorCf .contacts (.forward pre)
  Prog.lift (listContactsLoop pre items)

theorem run_getContact (db : ZeroDb) (store : ContactStore) (id : IdentityId) :
    db.run (store.getContact id) =
      (match db.get .contacts (makeKey store.owner id) with
        | none => .ok none
        | some b => ((Postcard.fromBytes Contact.codec b).mapError .codec).map some, db) := by
  unfold getContact
  simp only [Prog.run_bind, Prog.run_attempt, run_getRaw]
  cases db.get .contacts (makeKey store.owner id) with
  | none => rfl
  | some b =>
    simp only [Prog.run_bind, Prog.run_lift]
    cases (Postcard.fromBytes Contact.codec b).mapError ContactError.codec <;> rfl

end ContactStore

end ZeroSdk
