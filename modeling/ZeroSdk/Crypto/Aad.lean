/-
`zero-crypto`'s identifiers, 16 opaque bytes each and written raw, and
`MessageAad`, the header bound into every AEAD ciphertext: a CBOR map with
six keys in a fixed order. `decode` goes through the entries of whatever map
it is given, so only `decode_encode` connects it to `encode`, for a reader
that reads back what was written.
-/
import ZeroSdk.Lib.Cbor
import ZeroSdk.Lib.Postcard

namespace ZeroSdk

/-- 16-byte opaque identity identifier. -/
structure IdentityId where
  bytes : Arr 16
  deriving DecidableEq

/-- 16-byte opaque machine identifier. -/
structure MachineId where
  bytes : Arr 16
  deriving DecidableEq

/-- Logical clock / sequence number. -/
structure Epoch where
  val : UInt64
  deriving DecidableEq

def IdentityId.codec : Postcard.Codec IdentityId :=
  Postcard.iso (Postcard.array 16) (·.bytes) (⟨·⟩) fun _ => rfl

def MachineId.codec : Postcard.Codec MachineId :=
  Postcard.iso (Postcard.array 16) (·.bytes) (⟨·⟩) fun _ => rfl

def Epoch.codec : Postcard.Codec Epoch := Postcard.iso Postcard.u64 (·.val) (⟨·⟩) fun _ => rfl

namespace Crypto
open Cbor (Value Scalar Integer)

/-- The errors the modelled functions return. -/
inductive CryptoError
  | mlKem (msg : String)
  | ed25519 (msg : String)
  | mlDsa (msg : String)
  | aadEncoding (msg : String)
  | signatureVerificationFailed (algorithm : String)
  | decryptionFailed
  deriving DecidableEq

/-- `ok_or`. -/
def okOr {ε α : Type} (o : Option α) (e : ε) : Except ε α :=
  match o with
  | some a => .ok a
  | none => .error e

theorem bind_eq_ok {ε α β : Type} {x : Except ε α} {f : α → Except ε β} {b : β} :
    x >>= f = .ok b ↔ ∃ a, x = .ok a ∧ f a = .ok b := by
  cases x with
  | error e => simp [bind, Except.bind]
  | ok a => simp [bind, Except.bind]

theorem okOr_eq_ok {ε α : Type} {o : Option α} {e : ε} {a : α} : okOr o e = .ok a ↔ o = some a := by
  cases o <;> simp [okOr]

theorem mapError_eq_ok {ε ε' α : Type} {x : Except ε α} {f : ε → ε'} {a : α} : x.mapError f = .ok a ↔ x = .ok a := by
  cases x <;> simp [Except.mapError]

/-- Discriminates the sector schema version or type. -/
structure SchemaTag where
  val : UInt32
  deriving DecidableEq

/-- 16-byte opaque sector identifier. -/
structure SectorId where
  bytes : Arr 16
  deriving DecidableEq

/-- The header bound into every AEAD ciphertext. -/
structure MessageAad where
  schemaTag : SchemaTag
  sectorId : SectorId
  senderIdentity : IdentityId
  senderMachine : MachineId
  epoch : Epoch
  prevSectorId : Option SectorId
  deriving DecidableEq

/-- What is used of `ciborium`: its reader, with the text of its errors, and
the debug text of a value. -/
structure Ciborium where
  fromReader : Bytes → Except String Value
  debug : Value → String

/-! ## Keys -/

inductive Field
  | epoch
  | prevSectorId
  | schemaTag
  | sectorId
  | senderIdentity
  | senderMachine
  deriving DecidableEq

namespace Field

def chars : Field → List Char
  | epoch => ['e', 'p', 'o', 'c', 'h']
  | prevSectorId => ['p', 'r', 'e', 'v', '_', 's', 'e', 'c', 't', 'o', 'r', '_', 'i', 'd']
  | schemaTag => ['s', 'c', 'h', 'e', 'm', 'a', '_', 't', 'a', 'g']
  | sectorId => ['s', 'e', 'c', 't', 'o', 'r', '_', 'i', 'd']
  | senderIdentity => ['s', 'e', 'n', 'd', 'e', 'r', '_', 'i', 'd', 'e', 'n', 't', 'i', 't', 'y']
  | senderMachine => ['s', 'e', 'n', 'd', 'e', 'r', '_', 'm', 'a', 'c', 'h', 'i', 'n', 'e']

/-- As error texts name it. -/
def name (f : Field) : String := String.ofList f.chars

/-- Its key in the map. -/
def key (f : Field) : Str := ⟨Bytes.ascii f.chars, by cases f <;> decide, by cases f <;> decide⟩

def all : List Field := [epoch, prevSectorId, schemaTag, sectorId, senderIdentity, senderMachine]

/-- The field a key stands for. -/
def ofKey (s : Str) : Option Field := all.find? fun f => f.key = s

theorem ofKey_key (f : Field) : ofKey f.key = some f := by cases f <;> decide

end Field

/-! ## encode -/

theorem length_id_lt (b : Arr 16) : b.val.length < 2 ^ 64 := by
  rw [b.property]
  decide

/-- The entries of the map, in the order of the keys. -/
def MessageAad.entries (a : MessageAad) : List (Scalar × Scalar) :=
  let bytes (b : Arr 16) : Scalar := .bytes ⟨b.val, length_id_lt b⟩
  let prev := match a.prevSectorId with
    | some sid => bytes sid.bytes
    | none => .null
  [(.text Field.epoch.key, .integer (.ofNat a.epoch.val.toNat_lt)),
    (.text Field.prevSectorId.key, prev),
    (.text Field.schemaTag.key, .integer (.ofNat (Cbor.toNat_u32_lt a.schemaTag.val))),
    (.text Field.sectorId.key, bytes a.sectorId.bytes),
    (.text Field.senderIdentity.key, bytes a.senderIdentity.bytes),
    (.text Field.senderMachine.key, bytes a.senderMachine.bytes)]

/-- `encode`; writing to a vector does not fail. -/
def MessageAad.encode (a : MessageAad) : Except CryptoError Bytes := .ok (Cbor.encMap a.entries)

/-! ## decode -/

variable (c : Ciborium)

def extractU64 (v : Value) (field : String) : Except CryptoError UInt64 :=
  match v with
  | .integer i =>
    if 0 ≤ i.val then .ok (UInt64.ofNat i.val.toNat)
    else .error (.aadEncoding (field ++ ": integer out of u64 range"))
  | other => .error (.aadEncoding (field ++ ": expected integer, got " ++ c.debug other))

def bytesTo16 (b : Bytes) (field : String) : Except CryptoError (Arr 16) :=
  if h : b.length = 16 then .ok ⟨b, h⟩
  else .error (.aadEncoding (field ++ ": expected exactly 16 bytes, got " ++ toString b.length))

def extractBytes16 (v : Value) (field : String) : Except CryptoError (Arr 16) :=
  match v with
  | .bytes b => bytesTo16 b.val field
  | other => .error (.aadEncoding (field ++ ": expected bytes, got " ++ c.debug other))

/-- The fields found so far. -/
structure Found where
  epoch : Option UInt64 := none
  prevSectorId : Option (Option SectorId) := none
  schemaTag : Option UInt32 := none
  sectorId : Option SectorId := none
  senderIdentity : Option IdentityId := none
  senderMachine : Option MachineId := none

/-- One round of the loop of `decode`: keys that are no field's are passed
over, and a later entry replaces an earlier one. -/
def decodeEntry (found : Found) : Value × Value → Except CryptoError Found
  | (.text key, v) =>
    match Field.ofKey key with
    | some .epoch => do
      let n ← extractU64 c v Field.epoch.name
      pure { found with epoch := some n }
    | some .prevSectorId => do
      let prev ← match v with
        | .null => pure none
        | .bytes b => do
          let id ← bytesTo16 b.val Field.prevSectorId.name
          pure (some ⟨id⟩)
        | other => .error (.aadEncoding (Field.prevSectorId.name ++ ": expected bytes or null, got " ++ c.debug other))
      pure { found with prevSectorId := some prev }
    | some .schemaTag => do
      let n ← extractU64 c v Field.schemaTag.name
      pure { found with schemaTag := some n.toUInt32 }
    | some .sectorId => do
      let id ← extractBytes16 c v Field.sectorId.name
      pure { found with sectorId := some ⟨id⟩ }
    | some .senderIdentity => do
      let id ← extractBytes16 c v Field.senderIdentity.name
      pure { found with senderIdentity := some ⟨id⟩ }
    | some .senderMachine => do
      let id ← extractBytes16 c v Field.senderMachine.name
      pure { found with senderMachine := some ⟨id⟩ }
    | none => pure found
  | _ => pure found

def missing {α : Type} (o : Option α) (f : Field) : Except CryptoError α := okOr o (.aadEncoding ("missing " ++ f.name))

/-- The header of the fields found, or the first one missing. -/
def Found.finish (found : Found) : Except CryptoError MessageAad := do
  let schemaTag ← missing found.schemaTag .schemaTag
  let sectorId ← missing found.sectorId .sectorId
  let senderIdentity ← missing found.senderIdentity .senderIdentity
  let senderMachine ← missing found.senderMachine .senderMachine
  let epoch ← missing found.epoch .epoch
  let prevSectorId ← missing found.prevSectorId .prevSectorId
  pure ⟨⟨schemaTag⟩, sectorId, senderIdentity, senderMachine, ⟨epoch⟩, prevSectorId⟩

def MessageAad.decode (bytes : Bytes) : Except CryptoError MessageAad := do
  let value ← (c.fromReader bytes).mapError .aadEncoding
  match value with
  | .map entries => do
    let found ← entries.foldlM (decodeEntry c) {}
    found.finish
  | other => .error (.aadEncoding ("expected CBOR map, got " ++ c.debug other))

/-! ## Round trip -/

theorem extractU64_ofNat {n : Nat} (h : n < 2 ^ 64) (field : String) :
    extractU64 c (.integer (.ofNat h)) field = .ok (UInt64.ofNat n) := by
  have hnonneg : (0 : Int) ≤ n := Int.natCast_nonneg n
  simp [extractU64, Integer.ofNat, hnonneg]

theorem bytesTo16_val (b : Arr 16) (field : String) : bytesTo16 b.val field = .ok b := by
  rw [bytesTo16, dif_pos b.property]

/-- A header is read back from its bytes. -/
theorem MessageAad.decode_encode (hread : Cbor.ReadsMaps c.fromReader) (a : MessageAad) :
    MessageAad.decode c (Cbor.encMap a.entries) = .ok a := by
  have hlen : a.entries.length < 2 ^ 64 := show 6 < 2 ^ 64 by decide
  rw [MessageAad.decode, hread _ hlen]
  obtain ⟨⟨tag⟩, ⟨sid⟩, ⟨ident⟩, ⟨machine⟩, ⟨epoch⟩, prev⟩ := a
  cases prev with
  | none =>
    simp [Except.mapError, Cbor.mapValue, MessageAad.entries, Scalar.toValue, decodeEntry, Field.ofKey_key,
      extractU64_ofNat, extractBytes16, bytesTo16_val, Found.finish, missing, okOr, bind, Except.bind, pure, Except.pure]
  | some sid' =>
    simp [Except.mapError, Cbor.mapValue, MessageAad.entries, Scalar.toValue, decodeEntry, Field.ofKey_key,
      extractU64_ofNat, extractBytes16, bytesTo16_val, Found.finish, missing, okOr, bind, Except.bind, pure, Except.pure]

end Crypto

end ZeroSdk
