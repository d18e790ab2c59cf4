/-
The machine-key store over the life of an installation. Keys are generated,
the store is sealed to a disk, and after a restart it is unsealed from what
the disk holds by then, which may be an older blob, one of another key, or
anything at all.

`keyring_sound`: as long as the cipher opens only what was sealed under its
key, every record a store lists was returned by a generation for that
identity, the records are listed in the order they were generated in, and
each listed key signs under its listed public key. All a disk can do is to
set the store back to an earlier one.

`keyring_complete`: where the disk holds the store as it was, the store
lists exactly what the generations returned, restarts or not.
-/
import ZeroSdk.Identity.MachineKey

namespace ZeroSdk.Identity
open Crypto (okOr bind_eq_ok okOr_eq_ok mapError_eq_ok)

variable (P : Crates)

/-! ## Steps -/

/-- A generation, a seal for the disk, or a start from the bytes on it. -/
inductive KeyringStep
  | generate (call : GenerateCall)
  | toDisk (neuralKey : NeuralKey) (nonce : Arr nonceLen)
  | fromDisk (neuralKey : NeuralKey) (bytes : Bytes)

def KeyringStep.usesDisk : KeyringStep → Bool
  | .generate _ => false
  | .toDisk _ _ | .fromDisk _ _ => true

/-- The store, what its generations returned and for whom, and the blobs that
were sealed with their cipher keys. -/
structure Keyring where
  store : MachineKeyStore P
  returned : List (IdentityId × MachineKeyRecord)
  blobs : List (Arr 32 × Bytes)

namespace Keyring
variable {P}

/-- Failures leave everything as it is. -/
def step (r : Keyring P) : KeyringStep → Keyring P
  | .generate c =>
    match r.store.generateMachineKeyWith c.identity c.label c.capabilitiesBits c.epoch c.draws with
    | .ok (record, store) => { r with store, returned := r.returned ++ [(c.identity.identityId P, record)] }
    | .error _ => r
  | .toDisk k nonce =>
    match r.store.toSealedBytes k nonce with
    | .ok blob => { r with blobs := r.blobs ++ [(aeadFromNeuralKey P k, blob)] }
    | .error _ => r
  | .fromDisk k bytes =>
    match MachineKeyStore.fromSealedBytes P k bytes with
    | .ok store => { r with store }
    | .error _ => r

end Keyring

/-- The keyring after a sequence of steps from an empty store. -/
def keyring (steps : List KeyringStep) : Keyring P := steps.foldl Keyring.step ⟨MachineKeyStore.new P, [], []⟩

/-- What the generations for an identity returned, in order. -/
def Keyring.returnedFor {P : Crates} (r : Keyring P) (identity : NeuralKey) : List MachineKeyRecord :=
  (r.returned.filter (·.1 = identity.identityId P)).map (·.2)

/-- The cipher opens what a disk gives only if it was sealed before under the
same key. -/
def SealIntegrity (steps : List KeyringStep) : Prop :=
  ∀ pre k nonce ct post msg, steps = pre ++ .fromDisk k (nonce.val ++ ct) :: post →
    P.aeadDecrypt (aeadFromNeuralKey P k) nonce ct = some msg →
    (aeadFromNeuralKey P k, nonce.val ++ ct) ∈ (keyring P pre).blobs

/-- Whenever the store is read from the disk, the disk holds it as it is. -/
def Restored (steps : List KeyringStep) : Prop :=
  ∀ pre k bytes post, steps = pre ++ .fromDisk k bytes :: post →
    ∃ nonce, (keyring P pre).store.toSealedBytes k nonce = .ok bytes

/-- The cipher inverts on what is encrypted whenever the store is sealed, or
read from what it was sealed as. -/
def DecryptsStores (steps : List KeyringStep) : Prop :=
  ∀ pre a post, steps = pre ++ a :: post → a.usesDisk → Decrypts P (keyring P pre).store.plaintext

/-- A signature of a pair verifies under its public key. -/
def Verifies (verify : Arr 32 → Bytes → Bytes → Bool) : Prop :=
  ∀ pair payload, verify (P.ed25519Bytes pair) payload (P.signEd25519 pair payload).val = true

variable {P}

/-! ## Records -/

/-- The public view of a record. -/
def EntryRecord.view (r : EntryRecord P) : IdentityId × MachineKeyRecord :=
  (r.identityId, ⟨r.entry, r.capabilities, r.epoch⟩)

theorem listMachineRecords_eq (store : MachineKeyStore P) (identity : NeuralKey) :
    store.listMachineRecords identity =
      ((store.entries.val.map EntryRecord.view).filter (·.1 = identity.identityId P)).map (·.2) := by
  unfold MachineKeyStore.listMachineRecords
  rw [List.filter_map, List.map_map]
  rfl

theorem listMachineKeys_eq (store : MachineKeyStore P) (identity : NeuralKey) :
    store.listMachineKeys identity = (store.listMachineRecords identity).map (·.entry) := by
  unfold MachineKeyStore.listMachineKeys MachineKeyStore.listMachineRecords
  rw [List.map_map]
  rfl

theorem generated_view {store store' : MachineKeyStore P} {c : GenerateCall} {record : MachineKeyRecord}
    (h : store.generateMachineKeyWith c.identity c.label c.capabilitiesBits c.epoch c.draws = .ok (record, store')) :
    ∃ r : EntryRecord P, r.view = (c.identity.identityId P, record) ∧ store'.entries = pushRecord P store.entries r := by
  unfold MachineKeyStore.generateMachineKeyWith at h
  obtain ⟨derived, -, h⟩ := bind_eq_ok.mp h
  obtain ⟨createdAt, -, h⟩ := bind_eq_ok.mp h
  cases h
  exact ⟨_, rfl, rfl⟩

theorem Rederived.ed25519Pub {r : EntryRecord P} (h : Rederived r) : r.entry.ed25519Pub = P.ed25519Bytes r.pair := by
  unfold Rederived SealedEntry.intoRecord at h
  obtain ⟨derived, hderived, h⟩ := bind_eq_ok.mp h
  have hpub : derived.ed25519Pub = P.ed25519Bytes derived.pair := by
    obtain ⟨pair, -, hpair⟩ := bind_eq_ok.mp (mapError_eq_ok.mp hderived)
    rw [← Except.ok.inj hpair]
  have hrecord := Except.ok.inj h
  calc r.entry.ed25519Pub = derived.ed25519Pub := (congrArg (·.entry.ed25519Pub) hrecord).symm
    _ = P.ed25519Bytes derived.pair := hpub
    _ = P.ed25519Bytes r.pair := congrArg (P.ed25519Bytes ·.pair) hrecord

/-! ## Unsealing -/

/-- Only the cipher key counts for unsealing, and it must open the blob. -/
theorem fromSealedBytes_opens {k : NeuralKey} {bytes : Bytes} {store : MachineKeyStore P}
    (h : MachineKeyStore.fromSealedBytes P k bytes = .ok store) :
    ∃ (nonce : Arr nonceLen) (ct : Bytes) (msg : Bytes), bytes = nonce.val ++ ct ∧
      P.aeadDecrypt (aeadFromNeuralKey P k) nonce ct = some msg := by
  unfold MachineKeyStore.fromSealedBytes at h
  split at h
  · cases h
  · next hlen =>
    obtain ⟨msg, hopen, -⟩ := bind_eq_ok.mp h
    exact ⟨_, _, msg, (List.take_append_drop nonceLen bytes).symm, okOr_eq_ok.mp hopen⟩

theorem fromSealedBytes_congr {k k' : NeuralKey} (h : aeadFromNeuralKey P k = aeadFromNeuralKey P k') (bytes : Bytes) :
    MachineKeyStore.fromSealedBytes P k bytes = MachineKeyStore.fromSealedBytes P k' bytes := by
  unfold MachineKeyStore.fromSealedBytes
  rw [h]

/-! ## What every keyring satisfies -/

/-- A store that the returned records account for. -/
structure Sound (returned : List (IdentityId × MachineKeyRecord)) (store : MachineKeyStore P) : Prop where
  rederived : store.Rederived
  sublist : (store.entries.val.map EntryRecord.view).Sublist returned

theorem Sound.mono {returned returned' : List (IdentityId × MachineKeyRecord)} {store : MachineKeyStore P}
    (h : Sound returned store) (hle : returned.Sublist returned') : Sound returned' store :=
  ⟨h.rederived, h.sublist.trans hle⟩

theorem Sound.generate (hcaps : TruncatesOnce P) {returned : List (IdentityId × MachineKeyRecord)}
    {store store' : MachineKeyStore P} (h : Sound returned store) {c : GenerateCall} {record : MachineKeyRecord}
    (hok : store.generateMachineKeyWith c.identity c.label c.capabilitiesBits c.epoch c.draws = .ok (record, store')) :
    Sound (returned ++ [(c.identity.identityId P, record)]) store' := by
  obtain ⟨r, hview, hentries⟩ := generated_view hok
  refine ⟨generated_rederived hcaps hok h.rederived, ?_⟩
  rw [hentries]
  unfold pushRecord
  split
  · rw [List.map_append, ← hview]
    exact h.sublist.append (List.Sublist.refl _)
  · exact h.sublist.trans (List.sublist_append_left _ _)

/-- The store is accounted for, and every blob holds a store that is. -/
structure Keyring.Valid (r : Keyring P) : Prop where
  store : Sound r.returned r.store
  blobs : ∀ k bytes, (aeadFromNeuralKey P k, bytes) ∈ r.blobs →
    ∃ store, MachineKeyStore.fromSealedBytes P k bytes = .ok store ∧ Sound r.returned store

section Valid
variable {r : Keyring P} (h : r.Valid)
include h

theorem Keyring.Valid.generate (hcaps : TruncatesOnce P) (c : GenerateCall) : (r.step (.generate c)).Valid := by
  simp only [Keyring.step]
  split
  · next record store hok =>
    refine ⟨h.store.generate hcaps hok, fun k bytes hmem => ?_⟩
    obtain ⟨store', hopen, hsound⟩ := h.blobs k bytes hmem
    exact ⟨store', hopen, hsound.mono (List.sublist_append_left _ _)⟩
  · exact h

theorem Keyring.Valid.toDisk (haead : Decrypts P r.store.plaintext) (hcbor : ReadsBack P) (k : NeuralKey) (nonce : Arr nonceLen) :
    (r.step (.toDisk k nonce)).Valid := by
  obtain ⟨blob, hseal, hunseal⟩ := fromSealedBytes_toSealedBytes haead hcbor h.store.rederived k nonce
  simp only [Keyring.step, hseal]
  refine ⟨h.store, fun k' bytes hmem => ?_⟩
  rcases List.mem_append.mp hmem with hmem | hmem
  · exact h.blobs k' bytes hmem
  · obtain ⟨hkey, rfl⟩ := Prod.mk.inj (List.mem_singleton.mp hmem)
    exact ⟨r.store, (fromSealedBytes_congr hkey bytes).trans hunseal, h.store⟩

theorem Keyring.Valid.fromDisk {k : NeuralKey} {bytes : Bytes}
    (hblob : ∀ (nonce : Arr nonceLen) ct msg, bytes = nonce.val ++ ct →
      P.aeadDecrypt (aeadFromNeuralKey P k) nonce ct = some msg → (aeadFromNeuralKey P k, bytes) ∈ r.blobs) :
    (r.step (.fromDisk k bytes)).Valid := by
  simp only [Keyring.step]
  split
  · next store hok =>
    obtain ⟨nonce, ct, msg, hbytes, hopen⟩ := fromSealedBytes_opens hok
    obtain ⟨store', hok', hsound⟩ := h.blobs k bytes (hblob nonce ct msg hbytes hopen)
    rw [hok] at hok'
    rw [Except.ok.inj hok']
    exact ⟨hsound, h.blobs⟩
  · exact h

end Valid

theorem keyring_concat (steps : List KeyringStep) (a : KeyringStep) :
    keyring P (steps ++ [a]) = (keyring P steps).step a := by
  rw [keyring, List.foldl_append]
  rfl

theorem SealIntegrity.of_append {steps steps' : List KeyringStep} (h : SealIntegrity P (steps ++ steps')) :
    SealIntegrity P steps := by
  intro pre k nonce ct post msg heq
  exact h pre k nonce ct (post ++ steps') msg (by rw [heq]; simp)

theorem DecryptsStores.of_append {steps steps' : List KeyringStep} (h : DecryptsStores P (steps ++ steps')) :
    DecryptsStores P steps := by
  intro pre a post heq
  exact h pre a (post ++ steps') (by rw [heq]; simp)

theorem keyring_valid (hcbor : ReadsBack P) (hcaps : TruncatesOnce P) {steps : List KeyringStep}
    (haead : DecryptsStores P steps) (hseal : SealIntegrity P steps) : (keyring P steps).Valid := by
  induction steps using List.reverseRecOn with
  | nil =>
    refine ⟨⟨fun r hr => ?_, List.nil_sublist _⟩, fun _ _ hmem => ?_⟩
    · cases hr
    · cases hmem
  | append_singleton steps a ih =>
    rw [keyring_concat]
    cases a with
    | generate c => exact (ih haead.of_append hseal.of_append).generate hcaps c
    | toDisk k nonce =>
      exact (ih haead.of_append hseal.of_append).toDisk (haead steps _ [] rfl rfl) hcbor k nonce
    | fromDisk k bytes =>
      refine (ih haead.of_append hseal.of_append).fromDisk fun nonce ct msg hbytes hopen => ?_
      rw [hbytes]
      exact hseal steps k nonce ct [] msg (by rw [hbytes]) hopen

theorem signWith_of_mem {store : MachineKeyStore P} (hids : (store.entries.val.map (·.entry.machineId)).Nodup)
    {r : EntryRecord P} (hr : r ∈ store.entries.val) (payload : Bytes) :
    store.signWith r.entry.machineId payload = .ok (P.signEd25519 r.pair payload).val := by
  have hfind : store.entries.val.find? (·.entry.machineId = r.entry.machineId) = some r := by
    cases hf : store.entries.val.find? (·.entry.machineId = r.entry.machineId) with
    | none => simpa using List.find?_eq_none.mp hf r hr
    | some r' =>
      have hid : r'.entry.machineId = r.entry.machineId := by simpa using List.find?_some hf
      rw [List.inj_on_of_nodup_map hids (List.mem_of_find?_eq_some hf) hr hid]
  simp only [MachineKeyStore.signWith, MachineKeyStore.withPair, hfind]
  rfl

/-- **A keyring is sound**, whatever it generates, seals and reads from its
disk: the records it lists for an identity are returned ones, in the order of
their generation, and where machine ids do not repeat each listed key signs
under its listed public key. -/
theorem keyring_sound (hcbor : ReadsBack P) (hcaps : TruncatesOnce P) {verify : Arr 32 → Bytes → Bytes → Bool}
    (hverify : Verifies P verify) {steps : List KeyringStep} (haead : DecryptsStores P steps)
    (hseal : SealIntegrity P steps) (identity : NeuralKey) :
    ((keyring P steps).store.listMachineRecords identity).Sublist ((keyring P steps).returnedFor identity) ∧
      (((keyring P steps).returned.map (·.2.entry.machineId)).Nodup →
        ∀ record ∈ (keyring P steps).store.listMachineRecords identity, ∀ payload,
          ∃ signature, (keyring P steps).store.signWith record.entry.machineId payload = .ok signature ∧
            verify record.entry.ed25519Pub payload signature = true) := by
  obtain ⟨⟨hrederived, hsub⟩, -⟩ := keyring_valid hcbor hcaps haead hseal
  refine ⟨?_, fun hids record hrecord payload => ?_⟩
  · rw [listMachineRecords_eq]
    exact (hsub.filter _).map _
  · have hnodup : ((keyring P steps).store.entries.val.map (·.entry.machineId)).Nodup := by
      have hviews := hids.sublist (hsub.map (·.2.entry.machineId))
      rwa [List.map_map] at hviews
    obtain ⟨r, hr, rfl⟩ := List.mem_map.mp hrecord
    have hmem : r ∈ (keyring P steps).store.entries.val := List.mem_of_mem_filter hr
    refine ⟨_, signWith_of_mem hnodup hmem payload, ?_⟩
    rw [Rederived.ed25519Pub (hrederived r hmem)]
    exact hverify r.pair payload

/-! Simple primitives whose signatures can be checked with the public key. -/

def checksum (pub : Arr 32) (payload : Bytes) : Arr 64 := Arr.fill 64 ((pub.val ++ payload).foldl (· + ·) 0)

def summed : Crates := { plain with signEd25519 := fun pair payload => checksum pair.1 payload }

def alice : NeuralKey := ⟨Arr.fill 32 1⟩

/-- Two machines of one identity. -/
def desktop : GenerateCall := ⟨alice, Str.empty, 0x1F, 0, ⟨Arr.fill 128 5, Arr.fill 16 6, some 7⟩⟩

def phone : GenerateCall := ⟨alice, Str.empty, 3, 1, ⟨Arr.fill 128 8, Arr.fill 16 9, some 10⟩⟩

/-- The disk holds the first of them. -/
def desktopBlob : Bytes := ((generated summed [desktop]).toSealedBytes alice (Arr.fill 12 4)).toOption.getD []

/-- The second machine was not sealed before a restart. -/
def rolledBack : List KeyringStep :=
  [.generate desktop, .toDisk alice (Arr.fill 12 4), .generate phone, .fromDisk alice desktopBlob]

theorem summed_capabilities : TruncatesOnce summed := by
  intro b
  simp only [summed, plain, UInt32.and_assoc, UInt32.and_self]

theorem summed_readsBack : ReadsBack summed := by
  intro payload
  simp only [summed, plain, Postcard.fromBytes_enc]
  rfl

theorem summed_verifies : Verifies summed fun pub payload signature => signature = (checksum pub payload).val := by
  intro pair payload
  exact decide_eq_true rfl

/-- The only blob that the disk gives was sealed before. -/
theorem rolledBack_integrity : SealIntegrity summed rolledBack := by
  intro pre k nonce ct post msg heq _
  have hblob : (aeadFromNeuralKey summed alice, desktopBlob) ∈ (keyring summed (rolledBack.take 3)).blobs := by
    decide +kernel
  rcases pre with _ | ⟨a, _ | ⟨b, _ | ⟨c, _ | ⟨d, pre⟩⟩⟩⟩ <;> simp [rolledBack] at heq
  obtain ⟨rfl, rfl, rfl, ⟨rfl, hbytes⟩, -⟩ := heq
  rw [← hbytes]
  exact hblob

theorem keyring_sound_rolled_back :
    let r := keyring summed rolledBack
    (r.store.listMachineRecords alice).map (·.entry.machineId) = [⟨Arr.fill 16 6⟩] ∧
      (r.store.listMachineRecords alice).Sublist (r.returnedFor alice) ∧
      ∀ record ∈ r.store.listMachineRecords alice, ∀ payload,
        ∃ signature, r.store.signWith record.entry.machineId payload = .ok signature ∧
          decide (signature = (checksum record.entry.ed25519Pub payload).val) = true := by
  intro r
  obtain ⟨hsub, hsign⟩ := keyring_sound (P := summed) summed_readsBack summed_capabilities summed_verifies
    (fun _ _ _ _ _ => plain_decrypts _) rolledBack_integrity alice
  exact ⟨by decide +kernel, hsub, hsign (by decide +kernel)⟩

/-! ## Restarts -/

theorem Restored.of_append {steps steps' : List KeyringStep} (h : Restored P (steps ++ steps')) : Restored P steps := by
  intro pre k bytes post heq
  exact h pre k bytes (post ++ steps') (by rw [heq]; simp)

theorem length_returned_le (steps : List KeyringStep) : (keyring P steps).returned.length ≤ steps.length := by
  induction steps using List.reverseRecOn with
  | nil => exact le_refl 0
  | append_singleton steps a ih =>
    rw [keyring_concat, List.length_append]
    cases a with
    | generate c =>
      simp only [Keyring.step]
      split
      · rw [List.length_append]
        exact Nat.add_le_add_right ih 1
      · exact Nat.le_succ_of_le ih
    | toDisk k nonce =>
      simp only [Keyring.step]
      split <;> exact Nat.le_succ_of_le ih
    | fromDisk k bytes =>
      simp only [Keyring.step]
      split <;> exact Nat.le_succ_of_le ih

/-- **Restarts lose nothing** where the disk holds the store as it is: the
store lists for every identity exactly what its generations returned. -/
theorem keyring_complete (hcbor : ReadsBack P) (hcaps : TruncatesOnce P) {steps : List KeyringStep}
    (haead : DecryptsStores P steps) (hrestored : Restored P steps) (hlen : steps.length < 2 ^ 64)
    (identity : NeuralKey) :
    (keyring P steps).store.listMachineRecords identity = (keyring P steps).returnedFor identity ∧
      (keyring P steps).store.listMachineKeys identity = ((keyring P steps).returnedFor identity).map (·.entry) := by
  suffices hviews : (keyring P steps).store.Rederived ∧
      (keyring P steps).store.entries.val.map EntryRecord.view = (keyring P steps).returned by
    have hrecords : (keyring P steps).store.listMachineRecords identity = (keyring P steps).returnedFor identity := by
      rw [listMachineRecords_eq, hviews.2]
      rfl
    exact ⟨hrecords, by rw [listMachineKeys_eq, hrecords]⟩
  induction steps using List.reverseRecOn with
  | nil => exact ⟨fun r hr => (by cases hr), rfl⟩
  | append_singleton steps a ih =>
    rw [List.length_append, List.length_singleton] at hlen
    obtain ⟨hrederived, hviews⟩ := ih haead.of_append hrestored.of_append (by omega)
    rw [keyring_concat]
    cases a with
    | generate c =>
      simp only [Keyring.step]
      split
      · next record store hok =>
        obtain ⟨r, hview, hentries⟩ := generated_view hok
        have hroom : (keyring P steps).store.entries.val.length + 1 < 2 ^ 64 := by
          have hle := length_returned_le (P := P) steps
          rw [← hviews, List.length_map] at hle
          omega
        refine ⟨generated_rederived hcaps hok hrederived, ?_⟩
        rw [hentries, pushRecord, dif_pos hroom, List.map_append, hviews, List.map_cons, List.map_nil, hview]
      · exact ⟨hrederived, hviews⟩
    | toDisk k nonce =>
      simp only [Keyring.step]
      split <;> exact ⟨hrederived, hviews⟩
    | fromDisk k bytes =>
      obtain ⟨nonce, hseal⟩ := hrestored steps k bytes [] rfl
      obtain ⟨blob, hseal', hunseal⟩ := fromSealedBytes_toSealedBytes (haead steps _ [] rfl rfl) hcbor hrederived k nonce
      rw [hseal] at hseal'
      rw [← Except.ok.inj hseal'] at hunseal
      simp only [Keyring.step, hunseal]
      exact ⟨hrederived, hviews⟩

/-- A restart between two generations. -/
def restarted : List KeyringStep := [.generate desktop, .fromDisk alice desktopBlob, .generate phone]

theorem keyring_complete_restarted :
    let r := keyring summed restarted
    (r.store.listMachineKeys alice).map (·.machineId) = [⟨Arr.fill 16 6⟩, ⟨Arr.fill 16 9⟩] ∧
      r.store.listMachineRecords alice = r.returnedFor alice ∧
      r.store.listMachineKeys alice = (r.returnedFor alice).map (·.entry) := by
  intro r
  have hrestored : Restored summed restarted := by
    intro pre k bytes post heq
    have hseal : ((keyring summed (restarted.take 1)).store.toSealedBytes alice (Arr.fill 12 4)) = .ok desktopBlob := by
      rfl
    rcases pre with _ | ⟨a, _ | ⟨b, _ | ⟨c, pre⟩⟩⟩ <;> simp [restarted] at heq
    obtain ⟨rfl, ⟨rfl, rfl⟩, -⟩ := heq
    exact ⟨Arr.fill 12 4, hseal⟩
  obtain ⟨hrecords, hkeys⟩ :=
    keyring_complete (P := summed) summed_readsBack summed_capabilities (fun _ _ _ _ _ => plain_decrypts _) hrestored
      (by decide) alice
  exact ⟨by decide +kernel, hrecords, hkeys⟩

end ZeroSdk.Identity
