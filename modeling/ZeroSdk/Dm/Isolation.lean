/-
Services of several identities on one database. Contacts are kept per
owner, but the record of a conversation is under the hash of the two
identities in either order, while its `peer_identity` is the peer of
whoever opened it first. So when both sides of a conversation live on one
database, the side that opens second is told that its peer is itself
(`second_opener_gets_itself`).

`open_isolated_iff` says exactly when `open_conversation` answers as it
should, by the openings of the run so far. The invariant is `Records`: what
is stored for a pair of identities is what its first opening wrote.
-/
import Mathlib.Data.List.Induction
import ZeroSdk.Dm.Chains

namespace ZeroSdk.Dm
open DmService

/-! ## Conversation ids -/

section Derive
variable {blake3 : Bytes → Arr 32}

/-- No collisions among the inputs `derive` hashes. -/
def CollisionFree (blake3 : Bytes → Arr 32) : Prop :=
  ∀ x y : Bytes, x.length = 32 → y.length = 32 → blake3 x = blake3 y → x = y

theorem derive_comm (a b : IdentityId) : ConversationId.derive blake3 a b = ConversationId.derive blake3 b a := by
  unfold ConversationId.derive
  by_cases hab : a.bytes ≤ b.bytes
  · by_cases hba : b.bytes ≤ a.bytes
    · have h : a.bytes = b.bytes := le_antisymm hab hba
      simp only [h, le_refl, if_true]
    · simp only [hab, hba, if_true, if_false]
  · have hba : b.bytes ≤ a.bytes := le_of_lt (not_le.mp hab)
    simp only [hab, hba, if_true, if_false]

/-- Two openings are for the same two identities. -/
def SamePair (a b : IdentityId) (o : IdentityId × IdentityId) : Bool := o = (a, b) ∨ o = (b, a)

theorem samePair_comm (a b : IdentityId) (o : IdentityId × IdentityId) : SamePair a b o = SamePair b a o := by
  unfold SamePair
  rw [decide_eq_decide]
  exact or_comm

/-- Two identities that are the same two as others. -/
theorem samePair_eq {a b x y : IdentityId} (h : SamePair a b (x, y) = true) : SamePair a b = SamePair x y := by
  rcases of_decide_eq_true h with h | h
  · obtain ⟨rfl, rfl⟩ := Prod.mk.inj h
    rfl
  · obtain ⟨rfl, rfl⟩ := Prod.mk.inj h
    exact funext (samePair_comm _ _)

theorem derive_eq_of_samePair {a b : IdentityId} {o : IdentityId × IdentityId} (h : SamePair a b o = true) :
    ConversationId.derive blake3 o.1 o.2 = ConversationId.derive blake3 a b := by
  rcases of_decide_eq_true h with rfl | rfl
  · rfl
  · exact derive_comm b a

theorem samePair_of_derive_eq (hinj : CollisionFree blake3) {a b : IdentityId} {o : IdentityId × IdentityId}
    (h : ConversationId.derive blake3 o.1 o.2 = ConversationId.derive blake3 a b) : SamePair a b o = true := by
  have bytes : ∀ {x y x' y' : Arr 16}, blake3 (x.val ++ y.val) = blake3 (x'.val ++ y'.val) → x = x' ∧ y = y' := by
    intro x y x' y' hxy
    have happ := hinj _ _ (by rw [List.length_append, x.property, y.property])
      (by rw [List.length_append, x'.property, y'.property]) hxy
    obtain ⟨hx, hy⟩ := List.append_inj happ (x.property.trans x'.property.symm)
    exact ⟨Subtype.ext hx, Subtype.ext hy⟩
  obtain ⟨c, d⟩ := o
  cases a; cases b; cases c; cases d
  have hbytes := congrArg ConversationId.bytes h
  unfold ConversationId.derive at hbytes
  apply decide_eq_true
  simp only at hbytes
  split at hbytes <;> split at hbytes
  all_goals
    obtain ⟨h₁, h₂⟩ := bytes hbytes
    subst h₁ h₂
    simp

end Derive

/-! ## Shared databases -/

/-- A call on one of the services, or on one of the address books. -/
inductive SharedCall
  | addContact (store : ContactStore) (contact : Contact)
  | openConversation (s : DmService) (peer : IdentityId)
  | sendText (s : DmService) (c : ConversationId) (text : Str) (nowMs : UInt64) (id : MessageId) (sectorId : SectorId)
  | processInboundDm (r : DmReceiver) (bytes : Bytes) (nowMs receiptMs : UInt64) (sectorId : SectorId)
    (enqueuedMs : UInt64)

section Shared
variable (blake3 : Bytes → Arr 32)

def SharedCall.run (db : ZeroDb) : SharedCall → ZeroDb
  | .addContact store contact => (db.run (store.addContact contact)).2
  | .openConversation s peer => (db.run (s.openConversation blake3 peer)).2
  | .sendText s c text nowMs id sectorId => (db.run (s.sendText c text nowMs id sectorId)).2
  | .processInboundDm r bytes nowMs receiptMs sectorId enqueuedMs =>
    (db.run (r.processInboundDm blake3 bytes nowMs receiptMs sectorId enqueuedMs)).2

def runShared (db : ZeroDb) (calls : List SharedCall) : ZeroDb := calls.foldl (SharedCall.run blake3) db

/-- The conversation a call opens, if it opens one: the identity of the
service, and the peer, who must be a contact. `process_inbound_dm` opens the
one with the sender. -/
def SharedCall.opening (db : ZeroDb) : SharedCall → Option (IdentityId × IdentityId)
  | .openConversation s peer => if hasContact db s peer then some (s.identity, peer) else none
  | .processInboundDm r bytes _ _ _ _ =>
    match decodeDm bytes with
    | .ok p => if hasContact db r.service p.senderIdentity then some (r.service.identity, p.senderIdentity) else none
    | .error _ => none
  | _ => none

/-- The openings of a run, in order. -/
def openings (db : ZeroDb) : List SharedCall → List (IdentityId × IdentityId)
  | [] => []
  | call :: calls => (call.opening db).toList ++ openings (call.run blake3 db) calls

/-- The first opening of the conversation between two identities, by either. -/
def firstOpening (db : ZeroDb) (calls : List SharedCall) (a b : IdentityId) : Option (IdentityId × IdentityId) :=
  (openings blake3 db calls).find? (SamePair a b)

end Shared

/-! ## Records of conversations -/

/-- The conversations stored in `db'` are those of `db`. -/
def SameRecords (db db' : ZeroDb) : Prop := ∀ c : ConversationId, db'.get .chains c.storageKey = db.get .chains c.storageKey

theorem SameRecords.of_cf_eq {db db' : ZeroDb} (h : db'.cf .chains = db.cf .chains) : SameRecords db db' := by
  intro c
  unfold ZeroDb.get
  rw [h]

theorem SameRecords.trans {db db₁ db₂ : ZeroDb} (h : SameRecords db db₁) (h' : SameRecords db₁ db₂) :
    SameRecords db db₂ := fun c => (h' c).trans (h c)

theorem SameRecords.put {db db' : ZeroDb} (h : SameRecords db db') (c : ConversationId) (v : Bytes) :
    SameRecords (db.put .chains c.storageKey v) (db'.put .chains c.storageKey v) := by
  intro c'
  rw [ZeroDb.get_put, ZeroDb.get_put, h c']

theorem sameRecords_storeMessage (db : ZeroDb) (m : Message) : SameRecords db (db.run (storeMessage m)).2 :=
  fun c => ZeroDb.get_put_of_ne _ _ _ (storageKey_ne c _ _)

theorem sameRecords_enqueue (db : ZeroDb) (outbox : Outbox) (e : OutboxEntry) :
    SameRecords db (db.run (outbox.enqueue e)).2 := .of_cf_eq (Outbox.enqueue_cf db outbox e (by decide))

/-- `db'` has the conversations of `db`, or those with another last sector in
the one found under `c`. -/
def SameButSector (db : ZeroDb) (c : ConversationId) (db' : ZeroDb) : Prop :=
  SameRecords db db' ∨ ∃ conv lastSector, (db.run (resumeConversation c)).1 = .ok conv ∧
    SameRecords (db.put .chains conv.conversationId.storageKey (Conversation.codec.enc { conv with lastSector })) db'

theorem records_sendText (db : ZeroDb) (s : DmService) (c : ConversationId) (text : Str) (now : UInt64)
    (id : MessageId) (sectorId : SectorId) : SameButSector db c (db.run (s.sendText c text now id sectorId)).2 := by
  unfold sendText
  have hres := resumeConversation_snd db c
  refine ZeroDb.after_bind (SameButSector db c) (fun conv hconv => ?_) fun _ _ => ?_
  · rw [hres]
    have hstore := sameRecords_storeMessage db ⟨id, c, s.identity, s.machineId, text, .queued, now, now⟩
    refine ZeroDb.after_bind (SameButSector db c) (fun _ _ => ?_) fun _ _ => .inl hstore
    have henq := hstore.trans (sameRecords_enqueue _ Outbox.new
      (outboxEntry sectorId (DmSectorPayload.mk id c s.identity s.machineId text now).toAllocvec now))
    refine ZeroDb.after_bind (SameButSector db c) (fun _ _ => ?_) fun _ _ => ?_
    · rw [ZeroDb.run_mapErr]
      have hsave := henq.put conv.conversationId (Conversation.codec.enc { conv with lastSector := some sectorId })
      have h : SameButSector db c (ZeroDb.run _ (saveConversation { conv with lastSector := some sectorId })).2 :=
        .inr ⟨conv, some sectorId, hconv, hsave⟩
      exact ZeroDb.after_bind (SameButSector db c) (fun _ _ => h) fun _ _ => h
    · rw [ZeroDb.run_mapErr]
      exact .inl henq
  · rw [hres]
    exact .inl fun _ => rfl

theorem records_inbound (blake3 : Bytes → Arr 32) (db : ZeroDb) (r : DmReceiver) {bytes : Bytes} {p : DmSectorPayload}
    (h : decodeDm bytes = .ok p) (now receiptMs : UInt64) (sectorId : SectorId) (enqueuedMs : UInt64) :
    SameRecords (db.run (r.service.openConversation blake3 p.senderIdentity)).2
      (db.run (r.processInboundDm blake3 bytes now receiptMs sectorId enqueuedMs)).2 := by
  rw [run_inbound_snd blake3 db r h]
  exact (sameRecords_storeMessage _ (p.toMessage now)).trans (sameRecords_enqueue _ _ _)

/-! ## The invariant -/

/-- What is stored of conversations: for two identities what their first
opening wrote, up to the last sector, and nothing for anybody else. -/
structure Records (blake3 : Bytes → Arr 32) (opened : List (IdentityId × IdentityId)) (db : ZeroDb) : Prop where
  unopened : ∀ a b, opened.find? (SamePair a b) = none →
    db.get .chains (ConversationId.derive blake3 a b).storageKey = none
  opened : ∀ a b o, opened.find? (SamePair a b) = some o → ∃ last,
    db.get .chains (ConversationId.derive blake3 a b).storageKey =
      some (Conversation.codec.enc ⟨ConversationId.derive blake3 a b, o.2, last⟩)
  derived : ∀ (c : ConversationId) v, db.get .chains c.storageKey = some v →
    ∃ a b, c = ConversationId.derive blake3 a b

variable {blake3 : Bytes → Arr 32} {opened : List (IdentityId × IdentityId)} {db db' : ZeroDb}

theorem Records.of_same (h : Records blake3 opened db) (hs : SameRecords db db') : Records blake3 opened db' := by
  refine ⟨fun a b hf => ?_, fun a b o hf => ?_, fun c v hv => ?_⟩
  · rw [hs]
    exact h.unopened a b hf
  · rw [hs]
    exact h.opened a b o hf
  · rw [hs] at hv
    exact h.derived c v hv

theorem Records.first (h : Records blake3 opened db) {a b : IdentityId} {v : Bytes}
    (hv : db.get .chains (ConversationId.derive blake3 a b).storageKey = some v) :
    ∃ o last, opened.find? (SamePair a b) = some o ∧
      v = Conversation.codec.enc ⟨ConversationId.derive blake3 a b, o.2, last⟩ := by
  cases hf : opened.find? (SamePair a b) with
  | none =>
    rw [h.unopened a b hf] at hv
    cases hv
  | some o =>
    obtain ⟨last, hget⟩ := h.opened a b o hf
    rw [hget] at hv
    exact ⟨o, last, rfl, (Option.some.inj hv).symm⟩

theorem Records.find_none (h : Records blake3 opened db) {a b : IdentityId}
    (hnone : db.get .chains (ConversationId.derive blake3 a b).storageKey = none) :
    opened.find? (SamePair a b) = none := by
  cases hf : opened.find? (SamePair a b) with
  | none => rfl
  | some o =>
    obtain ⟨last, hget⟩ := h.opened a b o hf
    rw [hnone] at hget
    cases hget

theorem Records.own (h : Records blake3 opened db) {c : ConversationId} {v : Bytes}
    (hv : db.get .chains c.storageKey = some v) :
    ∃ a b o last, c = ConversationId.derive blake3 a b ∧ opened.find? (SamePair a b) = some o ∧
      v = Conversation.codec.enc ⟨c, o.2, last⟩ := by
  obtain ⟨a, b, rfl⟩ := h.derived c v hv
  obtain ⟨o, last, hf, hv⟩ := h.first hv
  exact ⟨a, b, o, last, rfl, hf, hv⟩

/-- A record is written for `x` and `y`, as their first opening has it. -/
theorem Records.put (hinj : CollisionFree blake3) (h : Records blake3 opened db)
    {opened' : List (IdentityId × IdentityId)} {x y : IdentityId} {o : IdentityId × IdentityId}
    (hfirst : opened'.find? (SamePair x y) = some o)
    (hother : ∀ a b, SamePair a b (x, y) = false → opened'.find? (SamePair a b) = opened.find? (SamePair a b))
    (last : Option SectorId) :
    Records blake3 opened' (db.put .chains (ConversationId.derive blake3 x y).storageKey
      (Conversation.codec.enc ⟨ConversationId.derive blake3 x y, o.2, last⟩)) := by
  have other : ∀ {a b}, SamePair a b (x, y) = false →
      (ConversationId.derive blake3 a b).storageKey ≠ (ConversationId.derive blake3 x y).storageKey := by
    intro a b hab heq
    have h := samePair_of_derive_eq hinj (o := (x, y)) (storageKey_inj heq).symm
    rw [hab] at h
    cases h
  refine ⟨fun a b hf => ?_, fun a b o' hf => ?_, fun c v hv => ?_⟩
  · cases hab : SamePair a b (x, y) with
    | true =>
      rw [samePair_eq hab, hfirst] at hf
      cases hf
    | false =>
      rw [ZeroDb.get_put_of_ne _ _ _ (other hab)]
      exact h.unopened a b (hother a b hab ▸ hf)
  · cases hab : SamePair a b (x, y) with
    | true =>
      rw [samePair_eq hab, hfirst] at hf
      cases hf
      rw [← derive_eq_of_samePair hab]
      exact ⟨last, ZeroDb.get_put_self _ _ _ _⟩
    | false =>
      rw [ZeroDb.get_put_of_ne _ _ _ (other hab)]
      exact h.opened a b o' (hother a b hab ▸ hf)
  · by_cases hc : c = ConversationId.derive blake3 x y
    · exact ⟨x, y, hc⟩
    · rw [ZeroDb.get_put_of_ne _ _ _ (fun heq => hc (storageKey_inj heq))] at hv
      exact h.derived c v hv

theorem Records.of_sameButSector (hinj : CollisionFree blake3) (h : Records blake3 opened db) {c : ConversationId}
    (hs : SameButSector db c db') : Records blake3 opened db' := by
  rcases hs with hs | ⟨conv, lastSector, hconv, hs⟩
  · exact h.of_same hs
  · refine Records.of_same ?_ hs
    obtain ⟨v, hv, hdec⟩ : ∃ v, db.get .chains c.storageKey = some v ∧ decodeConversation v = .ok conv := by
      unfold resumeConversation at hconv
      simp only [Prog.run_bind, Prog.run_mapErr, run_getRaw, Except.mapError, Prog.run_okOr] at hconv
      cases hv : db.get .chains c.storageKey with
      | none =>
        rw [hv] at hconv
        cases hconv
      | some v =>
        rw [hv] at hconv
        exact ⟨v, rfl, hconv⟩
    obtain ⟨a, b, o, last, rfl, hf, rfl⟩ := h.own hv
    rw [decodeConversation_enc] at hdec
    cases hdec
    exact h.put hinj hf (fun _ _ _ => rfl) lastSector

/-- An opening of a conversation that has one changes nothing; the first one
writes it. -/
theorem Records.openConversation (hinj : CollisionFree blake3) (h : Records blake3 opened db) (s : DmService)
    (peer : IdentityId) :
    Records blake3 (opened ++ (if hasContact db s peer then some (s.identity, peer) else none).toList)
      (db.run (s.openConversation blake3 peer)).2 := by
  have happend : ∀ a b, SamePair a b (s.identity, peer) = false →
      (opened ++ [(s.identity, peer)]).find? (SamePair a b) = opened.find? (SamePair a b) := by
    intro a b hab
    rw [List.find?_append, List.find?_singleton, hab]
    exact Option.or_none
  rcases openConversation_cases blake3 db s peer with ⟨hc, e, -, hrun⟩ | ⟨hc, b, hb, hrun⟩ | ⟨hc, hnone, hrun⟩
  · rw [hrun, hc, if_neg (by decide), Option.toList_none, List.append_nil]
    exact h
  · rw [hrun, hc, if_pos rfl]
    -- the pair is open already, so its first opening stays the first
    have hsame : ∀ a b, (opened ++ [(s.identity, peer)]).find? (SamePair a b) = opened.find? (SamePair a b) := by
      intro a b'
      cases hab : SamePair a b' (s.identity, peer) with
      | false => exact happend a b' hab
      | true =>
        obtain ⟨o, last, hf, -⟩ := h.first hb
        rw [List.find?_append, samePair_eq hab, hf]
        rfl
    exact ⟨fun a b hf => h.unopened a b (hsame a b ▸ hf), fun a b o hf => h.opened a b o (hsame a b ▸ hf), h.derived⟩
  · rw [hrun, hc, if_pos rfl]
    have hfirst : (opened ++ [(s.identity, peer)]).find? (SamePair s.identity peer) = some (s.identity, peer) := by
      rw [List.find?_append, h.find_none hnone]
      simp [SamePair]
    exact h.put hinj hfirst happend none

/-! ## Runs -/

theorem Records.step (hinj : CollisionFree blake3) (h : Records blake3 opened db) (call : SharedCall) :
    Records blake3 (opened ++ (call.opening db).toList) (call.run blake3 db) := by
  cases call with
  | addContact store contact =>
    simp only [SharedCall.opening, Option.toList_none, List.append_nil, SharedCall.run]
    refine h.of_same (.of_cf_eq ?_)
    unfold ContactStore.addContact
    split
    · rfl
    · exact db.cf_put_other _ _ (by decide)
  | openConversation s peer =>
    simp only [SharedCall.opening, SharedCall.run]
    exact h.openConversation hinj s peer
  | sendText s c text nowMs id sectorId =>
    simp only [SharedCall.opening, Option.toList_none, List.append_nil, SharedCall.run]
    exact h.of_sameButSector hinj (records_sendText db s c text nowMs id sectorId)
  | processInboundDm r bytes nowMs receiptMs sectorId enqueuedMs =>
    simp only [SharedCall.opening, SharedCall.run]
    cases hd : decodeDm bytes with
    | error e =>
      rw [run_inbound_error blake3 db r hd]
      simp only [Option.toList_none, List.append_nil]
      exact h
    | ok p =>
      have ho := h.openConversation hinj r.service p.senderIdentity
      exact ho.of_same (records_inbound blake3 db r hd nowMs receiptMs sectorId enqueuedMs)

theorem Records.run (hinj : CollisionFree blake3) (h : Records blake3 opened db) (calls : List SharedCall) :
    Records blake3 (opened ++ openings blake3 db calls) (runShared blake3 db calls) := by
  induction calls generalizing opened db with
  | nil =>
    rw [openings, List.append_nil]
    exact h
  | cons call calls ih =>
    have h' := ih (h.step hinj call)
    rw [List.append_assoc] at h'
    exact h'

theorem Records.empty : Records blake3 [] ZeroDb.empty :=
  ⟨fun _ _ _ => rfl, fun _ _ _ h => (by cases h), fun _ _ h => (by cases h)⟩

/-- **When a service's conversation is its own.** After any calls of any
services on a database that was empty, an `open_conversation(peer)` that
succeeds returns a conversation with `peer`, under the id of the two, if and
only if the first opening of that conversation in the run, if there was one,
was not the peer's (a conversation with oneself is nobody else's). -/
theorem open_isolated_iff (hinj : CollisionFree blake3) (calls : List SharedCall) (s : DmService) (peer : IdentityId)
    {conv : Conversation}
    (h : ((runShared blake3 ZeroDb.empty calls).run (s.openConversation blake3 peer)).1 = .ok conv) :
    (conv.peerIdentity = peer ∧ conv.conversationId = ConversationId.derive blake3 s.identity peer) ↔
      s.identity = peer ∨ firstOpening blake3 ZeroDb.empty calls s.identity peer ≠ some (peer, s.identity) := by
  have hrec := Records.empty.run hinj calls
  rw [List.nil_append] at hrec
  unfold firstOpening
  rcases openConversation_cases blake3 (runShared blake3 ZeroDb.empty calls) s peer with
    ⟨-, e, -, hrun⟩ | ⟨-, b, hb, hrun⟩ | ⟨-, hnone, hrun⟩
  · rw [hrun] at h
    cases h
  · rw [hrun] at h
    obtain ⟨o, last, hf, rfl⟩ := hrec.first hb
    rw [hf]
    simp only [decodeConversation_enc, Except.ok.injEq] at h
    subst h
    have hpair : SamePair s.identity peer o = true := List.find?_some hf
    rcases of_decide_eq_true hpair with rfl | rfl
    · -- opened first by this side
      refine iff_of_true ⟨rfl, rfl⟩ ?_
      by_cases heq : s.identity = peer
      · exact .inl heq
      · refine .inr fun hsome => heq ?_
        exact (Prod.mk.inj (Option.some.inj hsome)).1
    · -- opened first by the peer, whose peer is this side
      simp
  · rw [hrun] at h
    cases h
    rw [hrec.find_none hnone]
    simp

/-- A hash without collisions on 32 bytes. -/
def itself (b : Bytes) : Arr 32 := if h : b.length = 32 then ⟨b, h⟩ else Arr.fill 32 0

theorem itself_collisionFree : CollisionFree itself := by
  intro x y hx hy h
  simp only [itself, hx, hy, dif_pos] at h
  exact congrArg Subtype.val h

/-- The service of an identity, with its own address book. -/
def serviceOf (i : IdentityId) : DmService := ⟨i, ⟨Arr.fill 16 0⟩, ⟨i⟩⟩

/-- `id(1)` and `id(2)` are each other's contacts, and `id(1)` opens their
conversation. -/
def openedByOne : List SharedCall :=
  [.addContact ⟨⟨Arr.fill 16 1⟩⟩ ⟨⟨Arr.fill 16 2⟩, Str.empty, Vec.empty, none, 0⟩,
    .addContact ⟨⟨Arr.fill 16 2⟩⟩ ⟨⟨Arr.fill 16 1⟩, Str.empty, Vec.empty, none, 0⟩,
    .openConversation (serviceOf ⟨Arr.fill 16 1⟩) ⟨Arr.fill 16 2⟩]

/-- `id(1)` opens it again. -/
theorem open_isolated_iff_first :
    let conv : Conversation := ⟨ConversationId.derive itself ⟨Arr.fill 16 1⟩ ⟨Arr.fill 16 2⟩, ⟨Arr.fill 16 2⟩, none⟩
    ((runShared itself ZeroDb.empty openedByOne).run
      ((serviceOf ⟨Arr.fill 16 1⟩).openConversation itself ⟨Arr.fill 16 2⟩)).1 = .ok conv ∧
      ((serviceOf ⟨Arr.fill 16 1⟩).identity = ⟨Arr.fill 16 2⟩ ∨
        firstOpening itself ZeroDb.empty openedByOne ⟨Arr.fill 16 1⟩ ⟨Arr.fill 16 2⟩ ≠
          some (⟨Arr.fill 16 2⟩, ⟨Arr.fill 16 1⟩)) := by
  intro conv
  have h : ((runShared itself ZeroDb.empty openedByOne).run
      ((serviceOf ⟨Arr.fill 16 1⟩).openConversation itself ⟨Arr.fill 16 2⟩)).1 = .ok conv := by decide +kernel
  exact ⟨h, (open_isolated_iff itself_collisionFree openedByOne (serviceOf ⟨Arr.fill 16 1⟩) ⟨Arr.fill 16 2⟩ h).mp
    ⟨rfl, rfl⟩⟩

/-- `id(2)` opens the conversation with `id(1)` and is told that its peer is
`id(2)`. -/
theorem second_opener_gets_itself :
    CollisionFree itself ∧
      ((runShared itself ZeroDb.empty openedByOne).run
        ((serviceOf ⟨Arr.fill 16 2⟩).openConversation itself ⟨Arr.fill 16 1⟩)).1 =
        .ok ⟨ConversationId.derive itself ⟨Arr.fill 16 2⟩ ⟨Arr.fill 16 1⟩, ⟨Arr.fill 16 2⟩, none⟩ ∧
      (⟨Arr.fill 16 2⟩ : IdentityId) ≠ ⟨Arr.fill 16 1⟩ :=
  ⟨itself_collisionFree, by decide +kernel, by decide⟩

end ZeroSdk.Dm
