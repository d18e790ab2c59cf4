/-
`zero-identity`'s machine-key store: key pairs derived from drawn seeds, kept
in memory with their seeds, and sealed as one ChaCha20-Poly1305 blob for the
disk. A sealed entry has the seeds, the capability bits and the epoch but
neither the pair nor its public keys: unsealing derives them again.

That unsealing gives the store back rests on one invariant: every record of
a store is what its sealed entry derives (`Rederived`). It holds of a
generated record because the bits that are kept are those of the flags the
pair was derived with, not the caller's (`generated_rederived`).
-/
import Mathlib.Data.List.Induction
import ZeroSdk.Crypto.Aad
import ZeroSdk.Lib.Cbor

namespace ZeroSdk.Identity
open Postcard (pair iso)
open Crypto (okOr bind_eq_ok okOr_eq_ok mapError_eq_ok)

/-! ## Sealed entries -/

/-- `SealedEntry`: a machine key on disk. -/
structure SealedEntry where
  identityId : Arr 16
  machineId : Arr 16
  label : Str
  createdAt : UInt64
  capabilities : UInt32
  epoch : UInt64
  signSeed : Arr 32
  encryptSeed : Arr 32
  pqSignSeed : Arr 32
  pqEncryptSeed : Arr 32
  deriving DecidableEq

/-- `SealedPayload`. -/
structure SealedPayload where
  version : UInt8
  entries : Vec SealedEntry
  deriving DecidableEq

/-- A 32-byte seed is a byte string (`serde_byte_array_32`). -/
def seed : Postcard.Codec (Arr 32) := Cbor.byteString 32 (by decide)

/-- A 16-byte id is an array of numbers, as any other array. -/
def idBytes : Postcard.Codec (Arr 16) := Cbor.array 16 (by decide) Cbor.u8

/-- The CBOR of a sealed entry. -/
def SealedEntry.cbor : Postcard.Codec SealedEntry :=
  iso (Cbor.struct 10
      (pair (Cbor.field ['i', 'd', 'e', 'n', 't', 'i', 't', 'y', '_', 'i', 'd'] idBytes)
      (pair (Cbor.field ['m', 'a', 'c', 'h', 'i', 'n', 'e', '_', 'i', 'd'] idBytes)
      (pair (Cbor.field ['l', 'a', 'b', 'e', 'l'] Cbor.text)
      (pair (Cbor.field ['c', 'r', 'e', 'a', 't', 'e', 'd', '_', 'a', 't'] Cbor.u64)
      (pair (Cbor.field ['c', 'a', 'p', 'a', 'b', 'i', 'l', 'i', 't', 'i', 'e', 's'] Cbor.u32)
      (pair (Cbor.field ['e', 'p', 'o', 'c', 'h'] Cbor.u64)
      (pair (Cbor.field ['s', 'i', 'g', 'n', '_', 's', 'e', 'e', 'd'] seed)
      (pair (Cbor.field ['e', 'n', 'c', 'r', 'y', 'p', 't', '_', 's', 'e', 'e', 'd'] seed)
      (pair (Cbor.field ['p', 'q', '_', 's', 'i', 'g', 'n', '_', 's', 'e', 'e', 'd'] seed)
        (Cbor.field ['p', 'q', '_', 'e', 'n', 'c', 'r', 'y', 'p', 't', '_', 's', 'e', 'e', 'd'] seed)))))))))))
    (fun e => (e.identityId, e.machineId, e.label, e.createdAt, e.capabilities, e.epoch, e.signSeed, e.encryptSeed,
      e.pqSignSeed, e.pqEncryptSeed))
    (fun (i, m, l, t, c, n, s, e, ps, pe) => ⟨i, m, l, t, c, n, s, e, ps, pe⟩) fun _ => rfl

/-- The CBOR of a payload. -/
def SealedPayload.cbor : Postcard.Codec SealedPayload :=
  iso (Cbor.struct 2
      (pair (Cbor.field ['v', 'e', 'r', 's', 'i', 'o', 'n'] Cbor.u8)
        (Cbor.field ['e', 'n', 't', 'r', 'i', 'e', 's'] (Cbor.seq SealedEntry.cbor))))
    (fun p => (p.version, p.entries)) (fun (v, l) => ⟨v, l⟩) fun _ => rfl

example : SealedPayload.cbor.enc ⟨1, Vec.empty⟩ =
    0xA2 :: 0x67 :: Bytes.ascii ['v', 'e', 'r', 's', 'i', 'o', 'n'] ++
      0x01 :: 0x67 :: Bytes.ascii ['e', 'n', 't', 'r', 'i', 'e', 's'] ++ [0x80] := by decide +kernel

/-! ## The store -/

/-- What other crates provide. Key pairs are made of seeds and sign without
randomness. -/
structure Crates where
  /-- `zid`: capability flags, and key pairs. -/
  Capabilities : Type
  fromBitsTruncate : UInt32 → Capabilities
  bits : Capabilities → UInt32
  CryptoError : Type
  MachineKeyPair : Type
  fromSeeds : (sign encrypt pqSign pqEncrypt : Arr 32) → Capabilities → (epoch : UInt64) →
    Except CryptoError MachineKeyPair
  ed25519Bytes : MachineKeyPair → Arr 32
  mlDsaBytes : MachineKeyPair → Bytes
  /-- The Ed25519 half of `MachineKeyPair::sign`. -/
  signEd25519 : MachineKeyPair → Bytes → Arr 64
  /-- `blake3`. -/
  hash : Bytes → Arr 32
  keyedHash : Arr 32 → Bytes → Arr 32
  /-- `hkdf` with SHA-256: key material and info. -/
  hkdf : Bytes → Bytes → Arr 32
  /-- `chacha20poly1305`: key, nonce, message or ciphertext. -/
  aeadEncrypt : Arr 32 → Arr 12 → Bytes → Option Bytes
  aeadDecrypt : Arr 32 → Arr 12 → Bytes → Option Bytes
  /-- `ciborium`'s reader, with the text of its errors. -/
  fromReader : Bytes → Except String SealedPayload

/-- The errors the modelled functions return. -/
inductive IdentityError (ε : Type)
  | zid (e : ε)
  | keyNotFound
  | serializationError
  | sealError (text : String)
  | unsealError (text : String)
  deriving DecidableEq

/-- A 256-bit root secret. -/
structure NeuralKey where
  bytes : Arr 32
  deriving DecidableEq

/-- `MachineKeyEntry`: the public summary of a machine key. -/
structure MachineKeyEntry where
  machineId : MachineId
  label : Str
  createdAt : UInt64
  ed25519Pub : Arr 32
  mldsa65Pub : Bytes
  deriving DecidableEq

/-- `MachineKeyRecord`: the summary with capability bits and epoch. -/
structure MachineKeyRecord where
  entry : MachineKeyEntry
  capabilities : UInt32
  epoch : UInt64
  deriving DecidableEq

/-- The seeds of a pair. -/
structure StoredSeeds where
  sign : Arr 32
  encrypt : Arr 32
  pqSign : Arr 32
  pqEncrypt : Arr 32
  deriving DecidableEq

/-- `EntryRecord`: what the store holds of a machine key. -/
structure EntryRecord (P : Crates) where
  identityId : IdentityId
  entry : MachineKeyEntry
  capabilities : UInt32
  epoch : UInt64
  seeds : StoredSeeds
  pair : P.MachineKeyPair

/-- `MachineKeyStore`. Its mutex is never poisoned: a panic in a big-stack
thread ends at the `join`. -/
structure MachineKeyStore (P : Crates) where
  entries : Vec (EntryRecord P)

/-- What generating a machine key draws: seeds, an id, and the seconds since
1970 unless the clock is before that. -/
structure Draws where
  seedBuf : Arr 128
  machineId : Arr 16
  now : Option UInt64

variable (P : Crates)

abbrev Fallible (α : Type) := Except (IdentityError P.CryptoError) α

/-- The key of `identity_id_bytes`. -/
def blake3ContextKey : Arr 32 := P.hash (Bytes.ascii "zero-identity:identity-id:v1".toList)

def NeuralKey.identityIdBytes (k : NeuralKey) : Arr 16 :=
  let digest := P.keyedHash (blake3ContextKey P) k.bytes.val
  ⟨digest.val.take 16, by rw [List.length_take, digest.property]; rfl⟩

def NeuralKey.identityId (k : NeuralKey) : IdentityId := ⟨k.identityIdBytes P⟩

/-- `aead_from_neural_key`. HKDF gives 32 bytes without failing, and 32 bytes
are a key. -/
def aeadFromNeuralKey (k : NeuralKey) : Arr 32 :=
  P.hkdf (k.identityIdBytes P).val (Bytes.ascii "zero-identity/machine-key-store/v1".toList)

/-- `DerivedPair`. -/
structure DerivedPair where
  pair : P.MachineKeyPair
  ed25519Pub : Arr 32
  mldsa65Pub : Bytes

def derivePairAndPublic (seeds : StoredSeeds) (capabilities : P.Capabilities) (epoch : UInt64) :
    Except P.CryptoError (DerivedPair P) := do
  let pair ← P.fromSeeds seeds.sign seeds.encrypt seeds.pqSign seeds.pqEncrypt capabilities epoch
  pure ⟨pair, P.ed25519Bytes pair, P.mlDsaBytes pair⟩

/-- The four seeds in the order they are cut from the drawn bytes. -/
def seedAt (seedBuf : Arr 128) (i : Fin 4) : Arr 32 :=
  ⟨(seedBuf.val.drop (32 * i)).take 32, by
    rw [List.length_take, List.length_drop, seedBuf.property]
    omega⟩

/-- `push`; a vector that memory cannot hold is not made. -/
def pushRecord (v : Vec (EntryRecord P)) (r : EntryRecord P) : Vec (EntryRecord P) :=
  if h : v.val.length + 1 < 2 ^ 64 then ⟨v.val ++ [r], by rw [List.length_append]; exact h⟩ else v

namespace MachineKeyStore

def new : MachineKeyStore P := ⟨Vec.empty⟩

variable {P}

def generateMachineKeyWith (store : MachineKeyStore P) (identity : NeuralKey) (label : Str) (capabilitiesBits : UInt32)
    (epoch : UInt64) (d : Draws) : Fallible P (MachineKeyRecord × MachineKeyStore P) := do
  let capabilities := P.fromBitsTruncate capabilitiesBits
  let seeds : StoredSeeds := ⟨seedAt d.seedBuf 0, seedAt d.seedBuf 1, seedAt d.seedBuf 2, seedAt d.seedBuf 3⟩
  let derived ← (derivePairAndPublic P seeds capabilities epoch).mapError .zid
  let createdAt ← okOr d.now .serializationError
  let entry : MachineKeyEntry := ⟨⟨d.machineId⟩, label, createdAt, derived.ed25519Pub, derived.mldsa65Pub⟩
  let record : EntryRecord P :=
    ⟨identity.identityId P, entry, P.bits capabilities, epoch, seeds, derived.pair⟩
  pure (⟨entry, P.bits capabilities, epoch⟩, ⟨pushRecord P store.entries record⟩)

def listMachineKeys (store : MachineKeyStore P) (identity : NeuralKey) : List MachineKeyEntry :=
  (store.entries.val.filter (·.identityId = identity.identityId P)).map (·.entry)

def listMachineRecords (store : MachineKeyStore P) (identity : NeuralKey) : List MachineKeyRecord :=
  (store.entries.val.filter (·.identityId = identity.identityId P)).map fun r => ⟨r.entry, r.capabilities, r.epoch⟩

/-- `with_pair`: the first record of the machine. -/
def withPair {α : Type} (store : MachineKeyStore P) (machineId : MachineId) (f : P.MachineKeyPair → α) : Fallible P α :=
  match store.entries.val.find? (·.entry.machineId = machineId) with
  | none => .error .keyNotFound
  | some record => .ok (f record.pair)

def signWith (store : MachineKeyStore P) (machineId : MachineId) (payload : Bytes) : Fallible P Bytes :=
  (store.withPair machineId fun pair => P.signEd25519 pair payload).map (·.val)

end MachineKeyStore

/-! ## Sealing -/

/-- `SEAL_VERSION`. -/
def sealVersion : UInt8 := 1

/-- `NONCE_LEN`. -/
def nonceLen : Nat := 12

def SealedEntry.fromRecord {P : Crates} (r : EntryRecord P) : SealedEntry :=
  ⟨r.identityId.bytes, r.entry.machineId.bytes, r.entry.label, r.entry.createdAt, r.capabilities, r.epoch,
    r.seeds.sign, r.seeds.encrypt, r.seeds.pqSign, r.seeds.pqEncrypt⟩

def SealedEntry.intoRecord (e : SealedEntry) : Fallible P (EntryRecord P) := do
  let seeds : StoredSeeds := ⟨e.signSeed, e.encryptSeed, e.pqSignSeed, e.pqEncryptSeed⟩
  let derived ← (derivePairAndPublic P seeds (P.fromBitsTruncate e.capabilities) e.epoch).mapError .zid
  let entry : MachineKeyEntry := ⟨⟨e.machineId⟩, e.label, e.createdAt, derived.ed25519Pub, derived.mldsa65Pub⟩
  pure ⟨⟨e.identityId⟩, entry, e.capabilities, e.epoch, seeds, derived.pair⟩

/-- The loop of `from_sealed_bytes`. -/
def intoRecords : (l : List SealedEntry) → Fallible P { r : List (EntryRecord P) // r.length = l.length }
  | [] => .ok ⟨[], rfl⟩
  | e :: l => do
    let record ← e.intoRecord P
    let records ← intoRecords l
    pure ⟨record :: records.val, by rw [List.length_cons, List.length_cons, records.property]⟩

namespace MachineKeyStore

/-- `to_sealed_bytes`; writing the CBOR to memory does not fail. -/
def toSealedBytes {P : Crates} (store : MachineKeyStore P) (neuralKey : NeuralKey) (nonce : Arr nonceLen) :
    Fallible P Bytes := do
  let payload : SealedPayload := ⟨sealVersion, Vec.map SealedEntry.fromRecord store.entries⟩
  let plaintext := SealedPayload.cbor.enc payload
  let ciphertext ← okOr (P.aeadEncrypt (aeadFromNeuralKey P neuralKey) nonce plaintext)
    (.sealError "aead encrypt failed")
  pure (nonce.val ++ ciphertext)

def fromSealedBytes (neuralKey : NeuralKey) (bytes : Bytes) : Fallible P (MachineKeyStore P) :=
  if h : bytes.length < nonceLen then .error (.unsealError "payload shorter than nonce")
  else do
    let nonce : Arr nonceLen := ⟨bytes.take nonceLen, by rw [List.length_take]; omega⟩
    let plaintext ← okOr (P.aeadDecrypt (aeadFromNeuralKey P neuralKey) nonce (bytes.drop nonceLen))
      (.unsealError "aead authentication failed")
    let payload ← (P.fromReader plaintext).mapError fun e => .unsealError ("cbor decode: " ++ e)
    if payload.version ≠ sealVersion then
      .error (.unsealError ("unsupported sealed version: " ++ toString payload.version.toNat))
    else
      let records ← intoRecords P payload.entries.val
      pure ⟨⟨records.val, by rw [records.property]; exact payload.entries.property⟩⟩

end MachineKeyStore

/-! ## Runs -/

/-- A call of `generate_machine_key_with`. -/
structure GenerateCall where
  identity : NeuralKey
  label : Str
  capabilitiesBits : UInt32
  epoch : UInt64
  draws : Draws

/-- The store after the call, which a failed one leaves as it was. -/
def GenerateCall.run {P : Crates} (store : MachineKeyStore P) (c : GenerateCall) : MachineKeyStore P :=
  match store.generateMachineKeyWith c.identity c.label c.capabilitiesBits c.epoch c.draws with
  | .ok (_, store') => store'
  | .error _ => store

/-- The store after a sequence of calls on a new one. -/
def generated (calls : List GenerateCall) : MachineKeyStore P := calls.foldl GenerateCall.run (MachineKeyStore.new P)

/-- `from_bits_truncate` is idempotent. -/
def TruncatesOnce : Prop := ∀ b, P.fromBitsTruncate (P.bits (P.fromBitsTruncate b)) = P.fromBitsTruncate b

/-- The cipher encrypts the message, which is not beyond its length limit, and
decryption gives it back. -/
def Decrypts (msg : Bytes) : Prop :=
  ∀ key nonce, ∃ ct, P.aeadEncrypt key nonce msg = some ct ∧ P.aeadDecrypt key nonce ct = some msg

/-- What sealing the store encrypts. -/
def MachineKeyStore.plaintext {P : Crates} (store : MachineKeyStore P) : Bytes :=
  SealedPayload.cbor.enc ⟨sealVersion, Vec.map SealedEntry.fromRecord store.entries⟩

/-- CBOR decoding inverts encoding. -/
def ReadsBack : Prop := ∀ payload, P.fromReader (SealedPayload.cbor.enc payload) = .ok payload

variable {P}

/-- The record is what its sealed entry derives. -/
def Rederived (r : EntryRecord P) : Prop := (SealedEntry.fromRecord r).intoRecord P = .ok r

def MachineKeyStore.Rederived (store : MachineKeyStore P) : Prop := ∀ r ∈ store.entries.val, Identity.Rederived r

theorem mem_pushRecord {v : Vec (EntryRecord P)} {r r' : EntryRecord P} (h : r ∈ (pushRecord P v r').val) :
    r ∈ v.val ∨ r = r' := by
  unfold pushRecord at h
  split at h
  · simpa using h
  · exact .inl h

theorem generated_rederived (hcaps : TruncatesOnce P) {store store' : MachineKeyStore P} {identity : NeuralKey}
    {label : Str} {bits : UInt32} {epoch : UInt64} {d : Draws} {record : MachineKeyRecord}
    (h : store.generateMachineKeyWith identity label bits epoch d = .ok (record, store')) (hstore : store.Rederived) :
    store'.Rederived := by
  unfold MachineKeyStore.generateMachineKeyWith at h
  obtain ⟨derived, hderived, h⟩ := bind_eq_ok.mp h
  obtain ⟨createdAt, -, h⟩ := bind_eq_ok.mp h
  cases h
  intro r hr
  rcases mem_pushRecord hr with hr | rfl
  · exact hstore r hr
  · -- the flags of the kept bits are the flags the pair was derived with
    simp only [Rederived, SealedEntry.fromRecord, SealedEntry.intoRecord, hcaps bits, hderived]
    rfl

theorem rederived_generated (hcaps : TruncatesOnce P) (calls : List GenerateCall) : (generated P calls).Rederived := by
  induction calls using List.reverseRecOn with
  | nil =>
    intro r hr
    cases hr
  | append_singleton calls c ih =>
    rw [generated, List.foldl_append]
    change (GenerateCall.run (generated P calls) c).Rederived
    unfold GenerateCall.run
    split
    · next hok => exact generated_rederived hcaps hok ih
    · exact ih

theorem intoRecords_fromRecord {l : List (EntryRecord P)} (h : ∀ r ∈ l, Rederived r) :
    intoRecords P (l.map SealedEntry.fromRecord) = .ok ⟨l, (List.length_map _).symm⟩ := by
  induction l with
  | nil => rfl
  | cons r l ih =>
    have hl := ih fun r hr => h r (List.mem_cons_of_mem _ hr)
    exact bind_eq_ok.mpr ⟨r, h r List.mem_cons_self, bind_eq_ok.mpr ⟨_, hl, rfl⟩⟩

theorem fromSealedBytes_toSealedBytes {store : MachineKeyStore P} (haead : Decrypts P store.plaintext)
    (hcbor : ReadsBack P) (h : store.Rederived) (k : NeuralKey) (nonce : Arr nonceLen) :
    ∃ blob, store.toSealedBytes k nonce = .ok blob ∧ MachineKeyStore.fromSealedBytes P k blob = .ok store := by
  obtain ⟨ct, henc, hdec⟩ := haead (aeadFromNeuralKey P k) nonce
  have hlen : ¬ (nonce.val ++ ct).length < nonceLen := by
    rw [List.length_append, nonce.property]
    omega
  have hnonce : (⟨(nonce.val ++ ct).take nonceLen, by rw [List.length_take]; omega⟩ : Arr nonceLen) = nonce :=
    Subtype.ext (List.take_left' nonce.property)
  refine ⟨nonce.val ++ ct, bind_eq_ok.mpr ⟨ct, okOr_eq_ok.mpr henc, rfl⟩, ?_⟩
  rw [MachineKeyStore.fromSealedBytes, dif_neg hlen]
  simp only [hnonce, List.drop_left' nonce.property]
  refine bind_eq_ok.mpr ⟨_, okOr_eq_ok.mpr hdec, bind_eq_ok.mpr ⟨_, mapError_eq_ok.mpr (hcbor _), ?_⟩⟩
  rw [if_neg (by simp)]
  exact bind_eq_ok.mpr ⟨_, intoRecords_fromRecord h, rfl⟩

/-- **Sealed stores round-trip**, for every store made by calls of
`generate_machine_key_with` and every sealing key: unsealing succeeds, the
restored store lists and signs like the original, and seals like it. -/
theorem sealed_store_round_trips (calls : List GenerateCall) (haead : Decrypts P (generated P calls).plaintext)
    (hcbor : ReadsBack P) (hcaps : TruncatesOnce P) (k : NeuralKey) (nonce : Arr nonceLen) :
    ∃ blob restored, (generated P calls).toSealedBytes k nonce = .ok blob ∧
      MachineKeyStore.fromSealedBytes P k blob = .ok restored ∧
      (∀ identity, restored.listMachineKeys identity = (generated P calls).listMachineKeys identity) ∧
      (∀ identity, restored.listMachineRecords identity = (generated P calls).listMachineRecords identity) ∧
      (∀ machineId payload, restored.signWith machineId payload = (generated P calls).signWith machineId payload) ∧
      ∀ nonce', ∃ blob', restored.toSealedBytes k nonce' = .ok blob' ∧
        (generated P calls).toSealedBytes k nonce' = .ok blob' ∧
        MachineKeyStore.fromSealedBytes P k blob' = .ok restored := by
  have h := rederived_generated hcaps calls
  obtain ⟨blob, hseal, hunseal⟩ := fromSealedBytes_toSealedBytes haead hcbor h k nonce
  refine ⟨blob, generated P calls, hseal, hunseal, fun _ => rfl, fun _ => rfl, fun _ _ => rfl, fun nonce' => ?_⟩
  obtain ⟨blob', hseal', hunseal'⟩ := fromSealedBytes_toSealedBytes haead hcbor h k nonce'
  exact ⟨blob', hseal', hseal', hunseal'⟩

/-! Two machine keys of two identities, over simple primitives. -/

/-- Five capability flags, a pair that is its signing seed with the flags and
the epoch, and a cipher that only adds a tag. -/
def plain : Crates where
  Capabilities := UInt32
  fromBitsTruncate b := b &&& 0x1F
  bits b := b
  CryptoError := String
  MachineKeyPair := Arr 32 × UInt32 × UInt64
  fromSeeds sign _ _ _ capabilities epoch := .ok (sign, capabilities, epoch)
  ed25519Bytes pair := pair.1
  mlDsaBytes pair := List.replicate 1952 pair.2.2.toUInt8
  signEd25519 pair payload := Arr.fill 64 ((pair.1.val ++ payload).foldl (· + ·) pair.2.1.toUInt8)
  hash _ := Arr.fill 32 0
  keyedHash _ msg := if h : msg.length = 32 then ⟨msg, h⟩ else Arr.fill 32 0
  hkdf ikm _ := Arr.fill 32 (ikm.foldl (· + ·) 0)
  aeadEncrypt key _ msg := some (msg ++ key.val.take 16)
  aeadDecrypt key _ ct :=
    if ct.drop (ct.length - 16) = key.val.take 16 then some (ct.take (ct.length - 16)) else none
  fromReader b := (Postcard.fromBytes SealedPayload.cbor b).mapError fun _ => "invalid payload"

theorem plain_decrypts (msg : Bytes) : Decrypts plain msg := by
  intro key nonce
  refine ⟨msg ++ key.val.take 16, rfl, ?_⟩
  have htag : (key.val.take 16).length = 16 := by
    rw [List.length_take, key.property]
    rfl
  have hlen : (msg ++ key.val.take 16).length - 16 = msg.length := by
    rw [List.length_append, htag, Nat.add_sub_cancel]
  simp only [plain, hlen, List.drop_left, List.take_left, if_true]

theorem sealed_store_round_trips_two :
    let alice : NeuralKey := ⟨Arr.fill 32 1⟩
    let bob : NeuralKey := ⟨Arr.fill 32 2⟩
    let calls : List GenerateCall :=
      [⟨alice, Str.empty, 0xFFFFFFFF, 3, ⟨Arr.fill 128 5, Arr.fill 16 6, some 7⟩⟩,
        ⟨bob, Str.empty, 0, 0, ⟨Arr.fill 128 8, Arr.fill 16 9, some 10⟩⟩,
        ⟨alice, Str.empty, 0, 0, ⟨Arr.fill 128 8, Arr.fill 16 9, none⟩⟩]
    ∃ blob restored, (generated plain calls).toSealedBytes bob (Arr.fill 12 4) = .ok blob ∧
      MachineKeyStore.fromSealedBytes plain bob blob = .ok restored ∧
      (restored.listMachineRecords alice).map (fun r => (r.entry.machineId, r.capabilities, r.epoch)) =
        [(⟨Arr.fill 16 6⟩, 0x1F, 3)] := by
  intro alice bob calls
  have hcaps : TruncatesOnce plain := by
    intro b
    simp only [plain, UInt32.and_assoc, UInt32.and_self]
  have hcbor : ReadsBack plain := by
    intro payload
    simp only [plain, Postcard.fromBytes_enc]
    rfl
  obtain ⟨blob, restored, hseal, hunseal, -, hrecords, -⟩ :=
    sealed_store_round_trips calls (plain_decrypts _) hcbor hcaps bob (Arr.fill 12 4)
  refine ⟨blob, restored, hseal, hunseal, ?_⟩
  rw [hrecords]
  decide +kernel

end ZeroSdk.Identity
