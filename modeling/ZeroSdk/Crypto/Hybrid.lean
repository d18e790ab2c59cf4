/-
The two composed primitives of `zero-crypto`: hybrid encryption (X25519 and
ML-KEM-768 into one ChaCha20-Poly1305 key) and dual signatures (Ed25519 and
ML-DSA-65). The primitives themselves are other crates' (`Crates`); random
bytes are arguments (`Draws`).

A KEM output is 32 bytes of an X25519 public key and 1088 bytes of an ML-KEM
ciphertext. The encrypting side makes it of that length
(`encapKey_length`), and the decrypting side derives a key from no other
(`decapKey_length`).
-/
import ZeroSdk.Crypto.Aad

namespace ZeroSdk.Crypto

/-- What other crates provide. A key derived by HKDF has the length the
cipher takes. -/
structure Crates extends Ciborium where
  /-- `x25519_dalek`: the public key of a secret, and the shared secret. -/
  x25519Public : Arr 32 → Arr 32
  diffieHellman : Arr 32 → Arr 32 → Arr 32
  /-- `ml_kem`, with the randomness of an encapsulation. -/
  encapsulate : Arr 1184 → Arr 32 → Except String (Arr 1088 × Arr 32)
  decapsulate : Arr 2400 → Arr 1088 → Except String (Arr 32)
  /-- `hkdf` with SHA-256: key material and info. -/
  hkdf : Bytes → Bytes → Arr 32
  /-- `chacha20poly1305`: key, nonce, message or ciphertext, associated data. -/
  aeadEncrypt : Arr 32 → Arr 12 → Bytes → Bytes → Option Bytes
  aeadDecrypt : Arr 32 → Arr 12 → Bytes → Bytes → Option Bytes
  /-- `ed25519_dalek`. -/
  Ed25519Key : Type
  ed25519Sign : Arr 32 → Bytes → Arr 64
  ed25519Key : Arr 32 → Except String Ed25519Key
  ed25519Verify : Ed25519Key → Bytes → Arr 64 → Bool
  /-- `pqcrypto_mldsa`, with the randomness of a signature. -/
  MldsaSecret : Type
  MldsaPublic : Type
  MldsaSignature : Type
  mldsaSecret : Bytes → Except String MldsaSecret
  mldsaPublic : Bytes → Except String MldsaPublic
  mldsaSignature : Bytes → Except String MldsaSignature
  mldsaSign : MldsaSecret → Bytes → Arr 32 → Bytes
  mldsaVerify : MldsaPublic → Bytes → MldsaSignature → Bool

/-- The random bytes of one sealing. -/
structure Draws where
  ephSecret : Arr 32
  encapsSeed : Arr 32
  nonce : Arr 12
  signSeed : Arr 32

/-- Recipient public keys used for encryption. -/
structure RecipientPublicKey where
  x25519 : Arr 32
  mlkemEncapKey : Bytes

/-- Private keys used for decryption. -/
structure SenderPrivateKey where
  x25519Secret : Arr 32
  mlkemDecapKey : Bytes

structure HybridCiphertext where
  kemOutput : Bytes
  ciphertext : Bytes
  nonce : Arr 12
  deriving DecidableEq

structure DualSignature where
  ed25519 : Arr 64
  mldsa : Bytes
  deriving DecidableEq

structure SigningKeys where
  ed25519Secret : Arr 32
  mldsaSecret : Bytes

structure VerifyingKeys where
  ed25519Public : Arr 32
  mldsaPublic : Bytes

variable (P : Crates)

/-! ## Encryption -/

/-- `try_from` of a slice to an array. -/
def tryFrom (n : Nat) (b : Bytes) : Option (Arr n) := if h : b.length = n then some ⟨b, h⟩ else none

def deriveAeadKey (x25519Ss mlkemSs : Bytes) : Arr 32 :=
  P.hkdf (x25519Ss ++ mlkemSs) (Bytes.ascii ['z', 'e', 'r', 'o', '.', 'h', 'y', 'b', 'r', 'i', 'd', '.', 'v', '1'])

/-- The KEM output and the key that `hybrid_encrypt` makes for a recipient. -/
def encapKey (recipient : RecipientPublicKey) (d : Draws) : Except CryptoError (Bytes × Arr 32) := do
  let ephPublic := P.x25519Public d.ephSecret
  let x25519Ss := P.diffieHellman d.ephSecret recipient.x25519
  let ek ← okOr (tryFrom 1184 recipient.mlkemEncapKey) (.mlKem "invalid encapsulation key length")
  let (mlkemCt, mlkemSs) ← (P.encapsulate ek d.encapsSeed).mapError .mlKem
  pure (ephPublic.val ++ mlkemCt.val, deriveAeadKey P x25519Ss.val mlkemSs.val)

def hybridEncrypt (plaintext : Bytes) (recipient : RecipientPublicKey) (aadBytes : Bytes) (d : Draws) :
    Except CryptoError HybridCiphertext := do
  let (kemOutput, aeadKey) ← encapKey P recipient d
  let ct ← okOr (P.aeadEncrypt aeadKey d.nonce plaintext aadBytes) .decryptionFailed
  pure ⟨kemOutput, ct, d.nonce⟩

/-- The key that `hybrid_decrypt` derives from a KEM output. -/
def decapKey (kemOutput : Bytes) (recipientSk : SenderPrivateKey) : Except CryptoError (Arr 32) :=
  if kemOutput.length < 33 then .error .decryptionFailed
  else do
    let ephPublic ← okOr (tryFrom 32 (kemOutput.take 32)) .decryptionFailed
    let x25519Ss := P.diffieHellman recipientSk.x25519Secret ephPublic
    let dk ← okOr (tryFrom 2400 recipientSk.mlkemDecapKey) (.mlKem "invalid decapsulation key length")
    let mlkemCt ← okOr (tryFrom 1088 (kemOutput.drop 32)) .decryptionFailed
    let mlkemSs ← (P.decapsulate dk mlkemCt).mapError .mlKem
    pure (deriveAeadKey P x25519Ss.val mlkemSs.val)

def hybridDecrypt (ciphertext : HybridCiphertext) (recipientSk : SenderPrivateKey) (aadBytes : Bytes) :
    Except CryptoError Bytes := do
  let aeadKey ← decapKey P ciphertext.kemOutput recipientSk
  okOr (P.aeadDecrypt aeadKey ciphertext.nonce ciphertext.ciphertext aadBytes) .decryptionFailed

/-! ## Signatures -/

def dualSign (message : Bytes) (keys : SigningKeys) (d : Draws) : Except CryptoError DualSignature := do
  let edSig := P.ed25519Sign keys.ed25519Secret message
  let mldsaSk ← (P.mldsaSecret keys.mldsaSecret).mapError fun e => .mlDsa ("invalid ML-DSA-65 secret key: " ++ e)
  pure ⟨edSig, P.mldsaSign mldsaSk message d.signSeed⟩

def dualVerify (message : Bytes) (sig : DualSignature) (keys : VerifyingKeys) : Except CryptoError Unit := do
  let edPk ← (P.ed25519Key keys.ed25519Public).mapError fun e => .ed25519 ("invalid Ed25519 public key: " ++ e)
  if !P.ed25519Verify edPk message sig.ed25519 then .error (.signatureVerificationFailed "Ed25519")
  else
    let mldsaPk ← (P.mldsaPublic keys.mldsaPublic).mapError fun e => .mlDsa ("invalid ML-DSA-65 public key: " ++ e)
    let mldsaSig ← (P.mldsaSignature sig.mldsa).mapError fun e => .mlDsa ("invalid ML-DSA-65 signature: " ++ e)
    if !P.mldsaVerify mldsaPk message mldsaSig then .error (.signatureVerificationFailed "ML-DSA-65")
    else .ok ()

/-! ## What success says -/

variable {P}

theorem tryFrom_length {n : Nat} {b : Bytes} {a : Arr n} (h : tryFrom n b = some a) : b.length = n := by
  unfold tryFrom at h
  split at h
  · assumption
  · cases h

theorem encapKey_length {recipient : RecipientPublicKey} {d : Draws} {kemOutput : Bytes} {key : Arr 32}
    (h : encapKey P recipient d = .ok (kemOutput, key)) : kemOutput.length = 1120 := by
  unfold encapKey at h
  obtain ⟨ek, -, h⟩ := bind_eq_ok.mp h
  obtain ⟨⟨ct, ss⟩, -, h⟩ := bind_eq_ok.mp h
  obtain ⟨rfl, -⟩ := Prod.mk.inj (Except.ok.inj h)
  rw [List.length_append, (P.x25519Public d.ephSecret).property, ct.property]

theorem decapKey_length {kemOutput : Bytes} {sk : SenderPrivateKey} {key : Arr 32}
    (h : decapKey P kemOutput sk = .ok key) : kemOutput.length = 1120 := by
  unfold decapKey at h
  split at h
  · cases h
  next hlen =>
  obtain ⟨eph, -, h⟩ := bind_eq_ok.mp h
  obtain ⟨dk, -, h⟩ := bind_eq_ok.mp h
  obtain ⟨ct, hct, -⟩ := bind_eq_ok.mp h
  have hdrop := tryFrom_length (okOr_eq_ok.mp hct)
  rw [List.length_drop] at hdrop
  omega

theorem hybridEncrypt_eq_ok {plaintext aad : Bytes} {recipient : RecipientPublicKey} {d : Draws}
    {ct : HybridCiphertext} (h : hybridEncrypt P plaintext recipient aad d = .ok ct) :
    ∃ key, encapKey P recipient d = .ok (ct.kemOutput, key) ∧
      P.aeadEncrypt key ct.nonce plaintext aad = some ct.ciphertext := by
  unfold hybridEncrypt at h
  obtain ⟨⟨kemOutput, key⟩, hkey, h⟩ := bind_eq_ok.mp h
  obtain ⟨c, hc, h⟩ := bind_eq_ok.mp h
  cases h
  exact ⟨key, hkey, okOr_eq_ok.mp hc⟩

theorem hybridDecrypt_eq_ok {ct : HybridCiphertext} {sk : SenderPrivateKey} {aad plaintext : Bytes}
    (h : hybridDecrypt P ct sk aad = .ok plaintext) :
    ∃ key, decapKey P ct.kemOutput sk = .ok key ∧
      P.aeadDecrypt key ct.nonce ct.ciphertext aad = some plaintext := by
  unfold hybridDecrypt at h
  obtain ⟨key, hkey, h⟩ := bind_eq_ok.mp h
  exact ⟨key, hkey, okOr_eq_ok.mp h⟩

theorem dualVerify_eq_ok {message : Bytes} {sig : DualSignature} {keys : VerifyingKeys}
    (h : dualVerify P message sig keys = .ok ()) :
    (∃ edPk, P.ed25519Key keys.ed25519Public = .ok edPk ∧ P.ed25519Verify edPk message sig.ed25519 = true) ∧
    ∃ mldsaPk mldsaSig, P.mldsaPublic keys.mldsaPublic = .ok mldsaPk ∧ P.mldsaSignature sig.mldsa = .ok mldsaSig ∧
      P.mldsaVerify mldsaPk message mldsaSig = true := by
  unfold dualVerify at h
  obtain ⟨edPk, hed, h⟩ := bind_eq_ok.mp h
  split at h
  · cases h
  next hedv =>
  obtain ⟨mldsaPk, hpk, h⟩ := bind_eq_ok.mp h
  obtain ⟨mldsaSig, hsig, h⟩ := bind_eq_ok.mp h
  split at h
  · cases h
  next hmlv =>
  exact ⟨⟨edPk, mapError_eq_ok.mp hed, by simpa using hedv⟩, mldsaPk, mldsaSig, mapError_eq_ok.mp hpk,
    mapError_eq_ok.mp hsig, by simpa using hmlv⟩

end ZeroSdk.Crypto
