/-
What is sealed can be opened. The keys are made by the repository's own
generators over those of other crates (`KeyCrates`), and of the primitives
each is assumed to fit itself: the two sides of a key exchange agree,
decapsulation inverts encapsulation, decryption inverts encryption, a
signature is accepted under its own key.

What is left to show is that the receiver rebuilds what the sender made: the
KEM output is split where it was joined, both sides derive the cipher's key
from the two secrets in one order (`decapKey_encapKey`), both sign and verify
the same bytes, and the header is read back from its encoding.
-/
import ZeroSdk.Crypto.Envelope

namespace ZeroSdk.Crypto

/-- The key generators of other crates; a seed stands for the random bytes one
draws. -/
structure KeyCrates extends Crates where
  /-- `MlKem768::generate`: the decapsulation and the encapsulation key. -/
  mlkemGenerate : Arr 64 → Arr 2400 × Arr 1184
  /-- `verifying_key` of a signing key. -/
  ed25519Public : Arr 32 → Arr 32
  /-- `mldsa65::keypair`: the public and the secret key. -/
  mldsaKeypair : Arr 32 → Bytes × Bytes

variable (K : KeyCrates)

/-! ## Key generation -/

/-- The secret and the public key. -/
def generateX25519Keypair (secret : Arr 32) : Arr 32 × Arr 32 := (secret, K.x25519Public secret)

/-- The decapsulation and the encapsulation key. -/
def generateMlkemKeypair (seed : Arr 64) : Bytes × Bytes := ((K.mlkemGenerate seed).1.val, (K.mlkemGenerate seed).2.val)

/-- The secret and the public key. -/
def generateEd25519Keypair (secret : Arr 32) : Arr 32 × Arr 32 := (secret, K.ed25519Public secret)

/-- The secret and the public key. -/
def generateMldsaKeypair (seed : Arr 32) : Bytes × Bytes := ((K.mldsaKeypair seed).2, (K.mldsaKeypair seed).1)

/-- A recipient's two keys, matching. -/
def makeKeypair (secret : Arr 32) (seed : Arr 64) : SenderPrivateKey × RecipientPublicKey :=
  let (xSec, xPub) := generateX25519Keypair K secret
  let (mlDec, mlEnc) := generateMlkemKeypair K seed
  (⟨xSec, mlDec⟩, ⟨xPub, mlEnc⟩)

/-- A sender's two keys, matching. -/
def makeSigningKeys (secret seed : Arr 32) : SigningKeys × VerifyingKeys :=
  let (edSk, edPk) := generateEd25519Keypair K secret
  let (mldsaSk, mldsaPk) := generateMldsaKeypair K seed
  (⟨edSk, mldsaSk⟩, ⟨edPk, mldsaPk⟩)

/-! ## What is assumed of the primitives -/

/-- Both sides of an X25519 exchange get one secret. -/
def DhAgrees : Prop := ∀ a b, K.diffieHellman a (K.x25519Public b) = K.diffieHellman b (K.x25519Public a)

/-- Under a generated pair, encapsulation succeeds and decapsulation gives its
secret. -/
def KemInverts : Prop :=
  ∀ seed coins, ∃ ct ss, K.encapsulate (K.mlkemGenerate seed).2 coins = .ok (ct, ss) ∧
    K.decapsulate (K.mlkemGenerate seed).1 ct = .ok ss

/-- The cipher encrypts the message, which is not beyond its length limit, and
decryption gives it back. -/
def AeadInverts (msg : Bytes) : Prop :=
  ∀ key nonce aad, ∃ ct, K.aeadEncrypt key nonce msg aad = some ct ∧ K.aeadDecrypt key nonce ct aad = some msg

/-- Ed25519 accepts its own signatures. -/
def Ed25519Accepts : Prop :=
  ∀ secret, ∃ key, K.ed25519Key (K.ed25519Public secret) = .ok key ∧
    ∀ msg, K.ed25519Verify key msg (K.ed25519Sign secret msg) = true

/-- ML-DSA reads its own keys and signatures, and accepts the signatures. -/
def MldsaAccepts : Prop :=
  ∀ seed, ∃ sk pk, K.mldsaSecret (K.mldsaKeypair seed).2 = .ok sk ∧ K.mldsaPublic (K.mldsaKeypair seed).1 = .ok pk ∧
    ∀ msg coins, ∃ sig, K.mldsaSignature (K.mldsaSign sk msg coins) = .ok sig ∧ K.mldsaVerify pk msg sig = true

/-! ## The parts -/

variable {K}

theorem tryFrom_val {n : Nat} (a : Arr n) : tryFrom n a.val = some a := dif_pos a.property

/-- The recipient derives the key that was encapsulated for it. -/
theorem decapKey_encapKey (hdh : DhAgrees K) (hkem : KemInverts K) (secret : Arr 32) (seed : Arr 64) (d : Draws) :
    ∃ kemOutput key, encapKey K.toCrates (makeKeypair K secret seed).2 d = .ok (kemOutput, key) ∧
      decapKey K.toCrates kemOutput (makeKeypair K secret seed).1 = .ok key := by
  obtain ⟨ct, ss, henc, hdec⟩ := hkem seed d.encapsSeed
  have hpub := (K.x25519Public d.ephSecret).property
  have hct := ct.property
  refine ⟨(K.x25519Public d.ephSecret).val ++ ct.val,
    deriveAeadKey K.toCrates (K.diffieHellman d.ephSecret (K.x25519Public secret)).val ss.val, ?_, ?_⟩
  · simp only [encapKey, makeKeypair, generateX25519Keypair, generateMlkemKeypair, tryFrom_val, okOr]
    exact bind_eq_ok.mpr ⟨_, rfl, bind_eq_ok.mpr ⟨_, mapError_eq_ok.mpr henc, rfl⟩⟩
  · -- the output is split where it was joined
    have hlong : ¬ ((K.x25519Public d.ephSecret).val ++ ct.val).length < 33 := by
      rw [List.length_append, hpub, hct]
      decide
    rw [decapKey, if_neg hlong, List.take_left' hpub, List.drop_left' hpub, tryFrom_val, tryFrom_val]
    simp only [makeKeypair, generateX25519Keypair, generateMlkemKeypair, tryFrom_val, okOr]
    rw [← hdh]
    exact bind_eq_ok.mpr ⟨_, rfl, bind_eq_ok.mpr ⟨_, rfl, bind_eq_ok.mpr ⟨_, rfl,
      bind_eq_ok.mpr ⟨_, mapError_eq_ok.mpr hdec, rfl⟩⟩⟩⟩

theorem hybridDecrypt_hybridEncrypt (hdh : DhAgrees K) (hkem : KemInverts K) {plaintext : Bytes}
    (haead : AeadInverts K plaintext) (aad : Bytes) (secret : Arr 32) (seed : Arr 64) (d : Draws) :
    ∃ ct, hybridEncrypt K.toCrates plaintext (makeKeypair K secret seed).2 aad d = .ok ct ∧
      hybridDecrypt K.toCrates ct (makeKeypair K secret seed).1 aad = .ok plaintext := by
  obtain ⟨kemOutput, key, hencap, hdecap⟩ := decapKey_encapKey hdh hkem secret seed d
  obtain ⟨ct, henc, hdec⟩ := haead key d.nonce aad
  refine ⟨⟨kemOutput, ct, d.nonce⟩, ?_, ?_⟩
  · exact bind_eq_ok.mpr ⟨_, hencap, bind_eq_ok.mpr ⟨_, okOr_eq_ok.mpr henc, rfl⟩⟩
  · exact bind_eq_ok.mpr ⟨_, hdecap, okOr_eq_ok.mpr hdec⟩

theorem dualVerify_dualSign (hed : Ed25519Accepts K) (hmldsa : MldsaAccepts K) (message : Bytes) (secret seed : Arr 32)
    (d : Draws) :
    ∃ sig, dualSign K.toCrates message (makeSigningKeys K secret seed).1 d = .ok sig ∧
      dualVerify K.toCrates message sig (makeSigningKeys K secret seed).2 = .ok () := by
  obtain ⟨edPk, hedPk, hedOk⟩ := hed secret
  obtain ⟨sk, pk, hsk, hpk, hown⟩ := hmldsa seed
  obtain ⟨mldsaSig, hsig, hmlOk⟩ := hown message d.signSeed
  refine ⟨⟨K.ed25519Sign secret message, K.mldsaSign sk message d.signSeed⟩, ?_, ?_⟩
  · exact bind_eq_ok.mpr ⟨_, mapError_eq_ok.mpr hsk, rfl⟩
  · refine bind_eq_ok.mpr ⟨_, mapError_eq_ok.mpr hedPk, ?_⟩
    rw [hedOk]
    refine bind_eq_ok.mpr ⟨_, mapError_eq_ok.mpr hpk, bind_eq_ok.mpr ⟨_, mapError_eq_ok.mpr hsig, ?_⟩⟩
    rw [hmlOk]
    rfl

/-! ## The envelope -/

/-- **Envelope round trip.** For every plaintext and header, every matching
keys of a recipient and a sender, and whatever is drawn, the plaintext is
sealed, and the envelope opens to the plaintext and the header. -/
theorem openEnvelope_sealEnvelope (hread : Cbor.ReadsMaps K.fromReader) (hdh : DhAgrees K) (hkem : KemInverts K)
    (hed : Ed25519Accepts K) (hmldsa : MldsaAccepts K) {plaintext : Bytes} (haead : AeadInverts K plaintext)
    (aad : MessageAad) (xSecret : Arr 32) (kemSeed : Arr 64) (edSecret mldsaSeed : Arr 32) (d : Draws) :
    let (recipientSk, recipientPk) := makeKeypair K xSecret kemSeed
    let (signingKeys, verifyingKeys) := makeSigningKeys K edSecret mldsaSeed
    ∃ env, sealEnvelope K.toCrates plaintext aad recipientPk signingKeys d = .ok env ∧
      openEnvelope K.toCrates env recipientSk verifyingKeys = .ok (plaintext, aad) := by
  obtain ⟨ct, henc, hdec⟩ := hybridDecrypt_hybridEncrypt hdh hkem haead (Cbor.encMap aad.entries) xSecret kemSeed d
  obtain ⟨sig, hsign, hverify⟩ :=
    dualVerify_dualSign hed hmldsa (signingMessage (Cbor.encMap aad.entries) ct) edSecret mldsaSeed d
  refine ⟨⟨Cbor.encMap aad.entries, ct, sig⟩, ?_, ?_⟩
  · exact bind_eq_ok.mpr ⟨_, rfl, bind_eq_ok.mpr ⟨_, henc, bind_eq_ok.mpr ⟨_, hsign, rfl⟩⟩⟩
  · have hdecode := MessageAad.decode_encode K.toCiborium hread aad
    exact bind_eq_ok.mpr ⟨_, hverify, bind_eq_ok.mpr ⟨_, hdec, bind_eq_ok.mpr ⟨_, hdecode, rfl⟩⟩⟩

/-! Primitives that fit themselves. -/

/-- The first bytes of a string, filled up with zeros. -/
def padTo (n : Nat) (b : Bytes) : Arr n := ⟨(b ++ List.replicate n 0).take n, by simp⟩

theorem padTo_take {n k : Nat} (h : k ≤ n) (a : Arr k) : (padTo n a.val).val.take k = a.val := by
  rw [padTo, List.take_take, Nat.min_eq_left h, List.take_left' a.property]

/-- A key exchange by bytewise addition, a KEM that shows its secret, a cipher
that appends a tag, signatures that show key and message. -/
def toy : KeyCrates where
  fromReader := Cbor.readMap
  debug _ := ""
  x25519Public secret := secret
  diffieHellman a b := ⟨List.zipWith (· + ·) a.val b.val, length_zipWith_add a b⟩
  encapsulate _ coins := .ok (padTo 1088 coins.val, coins)
  decapsulate _ ct := .ok (padTo 32 (ct.val.take 32))
  hkdf material _ := padTo 32 (material.drop 32)
  aeadEncrypt key _ msg _ := some (msg ++ key.val.take 16)
  aeadDecrypt key _ ct _ := if key.val.take 16 <:+ ct then some (ct.take (ct.length - 16)) else none
  Ed25519Key := Arr 32
  ed25519Sign key msg := padTo 64 (key.val ++ msg)
  ed25519Key key := .ok key
  ed25519Verify key msg sig := sig == padTo 64 (key.val ++ msg)
  MldsaSecret := Arr 32
  MldsaPublic := Arr 32
  MldsaSignature := Arr 3309
  mldsaSecret b := okOr (tryFrom 32 (b.take 32)) "bad length"
  mldsaPublic b := okOr (tryFrom 32 (b.take 32)) "bad length"
  mldsaSignature b := okOr (tryFrom 3309 b) "bad length"
  mldsaSign key msg _ := (padTo 3309 (key.val ++ msg)).val
  mldsaVerify key msg sig := sig == padTo 3309 (key.val ++ msg)
  mlkemGenerate seed := (padTo 2400 seed.val, padTo 1184 seed.val)
  ed25519Public secret := secret
  mldsaKeypair seed := ((padTo 1952 seed.val).val, (padTo 4032 seed.val).val)

theorem openEnvelope_sealEnvelope_greeting :
    let (recipientSk, recipientPk) := makeKeypair toy (Arr.fill 32 7) (Arr.fill 64 8)
    let (signingKeys, verifyingKeys) := makeSigningKeys toy (Arr.fill 32 6) (Arr.fill 32 5)
    let d : Draws := ⟨Arr.fill 32 1, Arr.fill 32 2, Arr.fill 12 3, Arr.fill 32 4⟩
    ∃ env, sealEnvelope toy.toCrates greeting header recipientPk signingKeys d = .ok env ∧
      openEnvelope toy.toCrates env recipientSk verifyingKeys = .ok (greeting, header) := by
  have hread : Cbor.ReadsMaps toy.fromReader := Cbor.readsMaps_readMap
  have hdh : DhAgrees toy := by
    intro a b
    refine Subtype.ext ?_
    exact List.zipWith_comm_of_comm fun x y => UInt8.add_comm x y
  have hkem : KemInverts toy := by
    intro seed coins
    refine ⟨_, _, rfl, ?_⟩
    have hcoins : (padTo 1088 coins.val).val.take 32 = coins.val := padTo_take (by decide) coins
    have hpad : padTo 32 coins.val = coins := Subtype.ext (List.take_left' coins.property)
    change Except.ok (padTo 32 ((padTo 1088 coins.val).val.take 32)) = _
    rw [hcoins, hpad]
  have hed : Ed25519Accepts toy := by
    intro secret
    exact ⟨secret, rfl, fun msg => beq_self_eq_true _⟩
  have hmldsa : MldsaAccepts toy := by
    intro seed
    have hkey : ∀ {n}, 32 ≤ n → okOr (tryFrom 32 ((padTo n seed.val).val.take 32)) "bad length" = .ok seed := by
      intro n hn
      rw [padTo_take hn, tryFrom_val]
      rfl
    refine ⟨seed, seed, hkey (by decide), hkey (by decide), fun msg coins => ⟨padTo 3309 (seed.val ++ msg), ?_, ?_⟩⟩
    · change okOr (tryFrom 3309 (padTo 3309 (seed.val ++ msg)).val) "bad length" = _
      rw [tryFrom_val]
      rfl
    · exact beq_self_eq_true _
  have haead : AeadInverts toy greeting := by
    intro key nonce aad
    have hlen : (key.val.take 16).length = 16 := by rw [List.length_take, key.property]; rfl
    refine ⟨_, rfl, ?_⟩
    change (if key.val.take 16 <:+ greeting ++ key.val.take 16 then _ else none) = _
    rw [if_pos (List.suffix_append _ _), List.length_append, hlen, Nat.add_sub_cancel, List.take_left]
  exact openEnvelope_sealEnvelope hread hdh hkem hed hmldsa haead header _ _ _ _ _

end ZeroSdk.Crypto
