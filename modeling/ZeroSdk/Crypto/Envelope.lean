/-
Sealed envelopes. `seal_envelope` encodes the header, encrypts under it and
signs `aad || kem_output || nonce`; `open_envelope` verifies, decrypts and
decodes. The signed bytes carry no lengths and leave the AEAD ciphertext
out, so neither the signature nor the cipher says alone that an envelope is
one of the sender's. Together they do (`envelope_authenticity`): where
decryption succeeds the KEM output has its one length, so the signed bytes
split in one way (`signingMessage_inj`), and the cipher then binds the rest.
-/
import ZeroSdk.Crypto.Hybrid

namespace ZeroSdk.Crypto

/-- A fully encrypted and dual-signed sector. -/
structure CryptoEnvelope where
  aad : Bytes
  ciphertext : HybridCiphertext
  signature : DualSignature
  deriving DecidableEq

/-- The bytes that are signed: `aad_bytes || kem_output || nonce`. -/
def signingMessage (aad : Bytes) (ct : HybridCiphertext) : Bytes := aad ++ ct.kemOutput ++ ct.nonce.val

variable (P : Crates)

def sealEnvelope (plaintext : Bytes) (aad : MessageAad) (recipientPk : RecipientPublicKey) (senderSk : SigningKeys)
    (d : Draws) : Except CryptoError CryptoEnvelope := do
  let aadBytes ← aad.encode
  let ciphertext ← hybridEncrypt P plaintext recipientPk aadBytes d
  let signature ← dualSign P (signingMessage aadBytes ciphertext) senderSk d
  pure ⟨aadBytes, ciphertext, signature⟩

def openEnvelope (env : CryptoEnvelope) (recipientSk : SenderPrivateKey) (senderVk : VerifyingKeys) :
    Except CryptoError (Bytes × MessageAad) := do
  dualVerify P (signingMessage env.aad env.ciphertext) env.signature senderVk
  let plaintext ← hybridDecrypt P env.ciphertext recipientSk env.aad
  let aad ← MessageAad.decode P.toCiborium env.aad
  pure (plaintext, aad)

/-! ## One call each -/

variable {P}

theorem sealEnvelope_eq_ok {plaintext : Bytes} {aad : MessageAad} {recipientPk : RecipientPublicKey}
    {senderSk : SigningKeys} {d : Draws} {env : CryptoEnvelope}
    (h : sealEnvelope P plaintext aad recipientPk senderSk d = .ok env) :
    env.aad = Cbor.encMap aad.entries ∧ hybridEncrypt P plaintext recipientPk env.aad d = .ok env.ciphertext ∧
      dualSign P (signingMessage env.aad env.ciphertext) senderSk d = .ok env.signature := by
  unfold sealEnvelope at h
  obtain ⟨aadBytes, haad, h⟩ := bind_eq_ok.mp h
  obtain ⟨ct, hct, h⟩ := bind_eq_ok.mp h
  obtain ⟨sig, hsig, h⟩ := bind_eq_ok.mp h
  cases h
  cases haad
  exact ⟨rfl, hct, hsig⟩

theorem openEnvelope_eq_ok {env : CryptoEnvelope} {sk : SenderPrivateKey} {vk : VerifyingKeys} {plaintext : Bytes}
    {aad : MessageAad} (h : openEnvelope P env sk vk = .ok (plaintext, aad)) :
    dualVerify P (signingMessage env.aad env.ciphertext) env.signature vk = .ok () ∧
      hybridDecrypt P env.ciphertext sk env.aad = .ok plaintext ∧
      MessageAad.decode P.toCiborium env.aad = .ok aad := by
  unfold openEnvelope at h
  obtain ⟨⟨⟩, hsig, h⟩ := bind_eq_ok.mp h
  obtain ⟨p, hp, h⟩ := bind_eq_ok.mp h
  obtain ⟨a, ha, h⟩ := bind_eq_ok.mp h
  cases h
  exact ⟨hsig, hp, ha⟩

/-- With KEM outputs of one length, equal signed bytes have equal parts. -/
theorem signingMessage_inj {aad aad' : Bytes} {ct ct' : HybridCiphertext}
    (hlen : ct.kemOutput.length = ct'.kemOutput.length) (h : signingMessage aad ct = signingMessage aad' ct') :
    aad = aad' ∧ ct.kemOutput = ct'.kemOutput ∧ ct.nonce = ct'.nonce := by
  unfold signingMessage at h
  obtain ⟨hrest, hnonce⟩ := List.append_inj' h (ct.nonce.property.trans ct'.nonce.property.symm)
  obtain ⟨haad, hkem⟩ := List.append_inj' hrest hlen
  exact ⟨haad, hkem, Subtype.ext hnonce⟩

/-! ## Authenticity -/

/-- One use of `seal_envelope` by a sender. -/
structure Sealing (P : Crates) (senderSk : SigningKeys) where
  plaintext : Bytes
  aad : MessageAad
  recipientPk : RecipientPublicKey
  draws : Draws
  env : CryptoEnvelope
  sealed : sealEnvelope P plaintext aad recipientPk senderSk draws = .ok env

section Authenticity
variable {senderSk : SigningKeys} (sealings : List (Sealing P senderSk)) (senderVk : VerifyingKeys)
  (recipientSk : SenderPrivateKey)

/-- `dual_verify` accepts only what the sender signed while sealing. -/
def Unforgeable : Prop :=
  ∀ message sig, dualVerify P message sig senderVk = .ok () →
    ∃ s ∈ sealings, message = signingMessage s.env.aad s.env.ciphertext

/-- Under the key the recipient derives from the KEM output of a sealed
envelope, the cipher accepts only what was encrypted under that key for that
KEM output. -/
def CiphertextIntegrity : Prop :=
  ∀ s ∈ sealings, ∀ key nonce ct aad p, decapKey P s.env.ciphertext.kemOutput recipientSk = .ok key →
    P.aeadDecrypt key nonce ct aad = some p →
    ∃ s' ∈ sealings, encapKey P s'.recipientPk s'.draws = .ok (s.env.ciphertext.kemOutput, key) ∧
      s'.env.ciphertext = ⟨s.env.ciphertext.kemOutput, ct, nonce⟩ ∧ s'.env.aad = aad

/-- Decryption inverts encryption. -/
def Correct (P : Crates) : Prop :=
  ∀ key nonce msg aad ct, P.aeadEncrypt key nonce msg aad = some ct → P.aeadDecrypt key nonce ct aad = some msg

variable {sealings senderVk recipientSk}

/-- **An opened envelope is one of the sender's.** Whatever envelope
`open_envelope` accepts agrees with one the sender sealed in all but the
signature, and what it returns is what was sealed there. -/
theorem envelope_authenticity (hread : Cbor.ReadsMaps P.fromReader) (hsig : Unforgeable sealings senderVk)
    (haead : CiphertextIntegrity sealings recipientSk) (hdec : Correct P) (env : CryptoEnvelope) (p : Bytes)
    (a : MessageAad) (h : openEnvelope P env recipientSk senderVk = .ok (p, a)) :
    ∃ s ∈ sealings, (env.aad = s.env.aad ∧ env.ciphertext.kemOutput = s.env.ciphertext.kemOutput ∧
        env.ciphertext.nonce = s.env.ciphertext.nonce ∧ env.ciphertext.ciphertext = s.env.ciphertext.ciphertext) ∧
      p = s.plaintext ∧ a = s.aad := by
  obtain ⟨hverify, hdecrypt, hdecode⟩ := openEnvelope_eq_ok h
  obtain ⟨s, hs, hmsg⟩ := hsig _ _ hverify
  obtain ⟨key, hkey, hplain⟩ := hybridDecrypt_eq_ok hdecrypt
  -- both KEM outputs have the one length there is, so the signed bytes split alike
  obtain ⟨-, henc, -⟩ := sealEnvelope_eq_ok s.sealed
  obtain ⟨_, hsent, -⟩ := hybridEncrypt_eq_ok henc
  have hlen := (decapKey_length hkey).trans (encapKey_length hsent).symm
  obtain ⟨-, hkem, -⟩ := signingMessage_inj hlen hmsg
  -- the cipher names the sealing
  rw [hkem] at hkey
  obtain ⟨s', hs', hkey', hct, haad⟩ := haead s hs key _ _ _ p hkey hplain
  obtain ⟨haad', henc', -⟩ := sealEnvelope_eq_ok s'.sealed
  obtain ⟨key', hsent', hcipher⟩ := hybridEncrypt_eq_ok henc'
  have hkeys : key' = key := (Prod.mk.inj (Except.ok.inj (hsent'.symm.trans hkey'))).2
  subst hkeys
  rw [hct, haad] at hcipher
  have hp : some p = some s'.plaintext := hplain.symm.trans (hdec _ _ _ _ _ hcipher)
  have ha : (.ok a : Except CryptoError MessageAad) = .ok s'.aad := by
    rw [← hdecode, ← haad, haad', MessageAad.decode_encode _ hread]
  refine ⟨s', hs', ⟨haad.symm, ?_, ?_, ?_⟩, Option.some.inj hp, Except.ok.inj ha⟩
  · rw [hct, hkem]
  · rw [hct]
  · rw [hct]

end Authenticity

/-! One sealing, with tables for the cipher and the signatures. -/

def header : MessageAad :=
  ⟨⟨1⟩, ⟨Arr.fill 16 1⟩, ⟨Arr.fill 16 2⟩, ⟨Arr.fill 16 3⟩, ⟨42⟩, none⟩

def greeting : Bytes := Bytes.ascii ['h', 'i']

def greetingCt : HybridCiphertext := ⟨List.replicate 1120 0, greeting ++ List.replicate 16 0xAA, Arr.fill 12 4⟩

theorem length_zipWith_add (a b : Arr 32) : (List.zipWith (· + ·) a.val b.val).length = 32 := by
  rw [List.length_zipWith, a.property, b.property, min_self]

/-- The cipher and the signatures know the greeting only. -/
def tables : Crates where
  fromReader := Cbor.readMap
  debug _ := ""
  x25519Public secret := secret
  diffieHellman a b := ⟨List.zipWith (· + ·) a.val b.val, length_zipWith_add a b⟩
  encapsulate _ seed := .ok (Arr.fill 1088 0, seed)
  decapsulate _ _ := .ok (Arr.fill 32 0)
  hkdf _ _ := Arr.fill 32 5
  aeadEncrypt _ nonce msg aad :=
    if nonce = greetingCt.nonce ∧ msg = greeting ∧ aad = Cbor.encMap header.entries then some greetingCt.ciphertext
    else none
  aeadDecrypt _ nonce ct aad :=
    if nonce = greetingCt.nonce ∧ ct = greetingCt.ciphertext ∧ aad = Cbor.encMap header.entries then some greeting
    else none
  Ed25519Key := Arr 32
  ed25519Sign _ _ := Arr.fill 64 1
  ed25519Key key := .ok key
  ed25519Verify _ msg sig := msg == signingMessage (Cbor.encMap header.entries) greetingCt && sig == Arr.fill 64 1
  MldsaSecret := Arr 4032
  MldsaPublic := Arr 1952
  MldsaSignature := Arr 3309
  mldsaSecret b := okOr (tryFrom 4032 b) "bad length"
  mldsaPublic b := okOr (tryFrom 1952 b) "bad length"
  mldsaSignature b := okOr (tryFrom 3309 b) "bad length"
  mldsaSign _ _ _ := List.replicate 3309 2
  mldsaVerify _ msg sig := msg == signingMessage (Cbor.encMap header.entries) greetingCt && sig == Arr.fill 3309 2

/-- The greeting, sealed. -/
def greetingSealing : Sealing tables ⟨Arr.fill 32 6, List.replicate 4032 6⟩ where
  plaintext := greeting
  aad := header
  recipientPk := ⟨Arr.fill 32 7, List.replicate 1184 8⟩
  draws := ⟨Arr.fill 32 0, Arr.fill 32 0, Arr.fill 12 4, Arr.fill 32 0⟩
  env := ⟨Cbor.encMap header.entries, greetingCt, ⟨Arr.fill 64 1, List.replicate 3309 2⟩⟩
  sealed := by decide +kernel

theorem envelope_authenticity_greeting :
    let recipientSk : SenderPrivateKey := ⟨Arr.fill 32 7, List.replicate 2400 9⟩
    let senderVk : VerifyingKeys := ⟨Arr.fill 32 6, List.replicate 1952 6⟩
    openEnvelope tables greetingSealing.env recipientSk senderVk = .ok (greeting, header) ∧
      ∃ s ∈ [greetingSealing], (greetingSealing.env.aad = s.env.aad ∧
          greetingSealing.env.ciphertext.kemOutput = s.env.ciphertext.kemOutput ∧
          greetingSealing.env.ciphertext.nonce = s.env.ciphertext.nonce ∧
          greetingSealing.env.ciphertext.ciphertext = s.env.ciphertext.ciphertext) ∧
        greeting = s.plaintext ∧ header = s.aad := by
  intro recipientSk senderVk
  have hopen : openEnvelope tables greetingSealing.env recipientSk senderVk = .ok (greeting, header) := by
    decide +kernel
  have hsig : Unforgeable [greetingSealing] senderVk := by
    intro message sig h
    obtain ⟨⟨edPk, -, hed⟩, -⟩ := dualVerify_eq_ok h
    obtain ⟨hmsg, -⟩ := Bool.and_eq_true_iff.mp hed
    exact ⟨greetingSealing, List.mem_singleton_self _, eq_of_beq hmsg⟩
  have haead : CiphertextIntegrity [greetingSealing] recipientSk := by
    intro s hs key nonce ct aad p hkey hdec
    obtain rfl := List.mem_singleton.mp hs
    have hown : decapKey tables greetingSealing.env.ciphertext.kemOutput recipientSk = .ok (Arr.fill 32 5) := by
      decide +kernel
    obtain rfl := Except.ok.inj (hown.symm.trans hkey)
    simp only [tables, Option.ite_none_right_eq_some] at hdec
    obtain ⟨⟨rfl, rfl, rfl⟩, -⟩ := hdec
    exact ⟨greetingSealing, List.mem_singleton_self _, by decide +kernel, rfl, rfl⟩
  have hdec : Correct tables := by
    intro key nonce msg aad ct h
    simp only [tables, Option.ite_none_right_eq_some] at h
    obtain ⟨⟨rfl, rfl, rfl⟩, h⟩ := h
    cases h
    simp only [tables, and_self, if_true]
  exact ⟨hopen, envelope_authenticity Cbor.readsMaps_readMap hsig haead hdec _ _ _ hopen⟩

end ZeroSdk.Crypto
