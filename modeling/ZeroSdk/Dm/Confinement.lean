/-
Which conversation an inbound message ends up in. `process_inbound_dm`
opens the conversation of its identity with the payload's sender, and files
the message under the conversation the payload names: a sender can place a
message in any conversation, also one between others
(`inbound_names_conversation`).

`inbound_confined` says exactly when a call stays within the conversation
with the sender, and that in a run where every inbound payload names that
conversation every inbound message is stored there.
-/
import ZeroSdk.Dm.Isolation
import ZeroSdk.Dm.Monotone

namespace ZeroSdk.Dm
open DmService

/-- A key of the conversation: its record, or one of its messages. -/
def Owns (c : ConversationId) (k : Bytes) : Prop := k = c.storageKey ∨ ∃ id, k = makeMsgKey c id

/-- From `db` to `db'` only keys of the conversation change. -/
def Confined (c : ConversationId) (db db' : ZeroDb) : Prop :=
  ∀ k, db'.get .chains k ≠ db.get .chains k → Owns c k

theorem owns_storageKey {c c' : ConversationId} : Owns c c'.storageKey ↔ c' = c := by
  constructor
  · intro h
    rcases h with h | ⟨id, h⟩
    · exact storageKey_inj h
    · exact absurd h (storageKey_ne c' c id)
  · intro h
    rw [h]
    exact .inl rfl

theorem owns_makeMsgKey {c c' : ConversationId} {id : MessageId} : Owns c (makeMsgKey c' id) ↔ c' = c := by
  constructor
  · intro h
    rcases h with h | ⟨id', h⟩
    · exact absurd h.symm (storageKey_ne c c' id)
    · exact (makeMsgKey_inj h).1
  · intro h
    rw [h]
    exact .inr ⟨id, rfl⟩

theorem confined_put_iff {c : ConversationId} {db : ZeroDb} {k v : Bytes} :
    Confined c db (db.put .chains k v) ↔ Owns c k ∨ db.get .chains k = some v := by
  constructor
  · intro h
    by_cases hv : db.get .chains k = some v
    · exact .inr hv
    · refine .inl (h k ?_)
      rw [ZeroDb.get_put_self]
      exact Ne.symm hv
  · intro h k' hne
    by_cases hk : k' = k
    · subst hk
      rw [ZeroDb.get_put_self] at hne
      exact h.resolve_right (Ne.symm hne)
    · exact absurd (ZeroDb.get_put_of_ne _ _ _ hk) hne

theorem Confined.of_cf_eq {c : ConversationId} {db db₁ db₂ : ZeroDb} (h : db₂.cf .chains = db₁.cf .chains) :
    Confined c db db₂ ↔ Confined c db db₁ := by
  have hget : ∀ k, db₂.get .chains k = db₁.get .chains k := by
    intro k
    unfold ZeroDb.get
    rw [h]
  unfold Confined
  simp only [hget]

theorem confined_put_put_iff {c : ConversationId} {db : ZeroDb} {k v k' v' : Bytes} (hne : k' ≠ k) :
    Confined c db ((db.put .chains k v).put .chains k' v') ↔
      Confined c db (db.put .chains k v) ∧ Confined c db (db.put .chains k' v') := by
  have hk : ∀ x, x ≠ k' → ((db.put .chains k v).put .chains k' v').get .chains x = (db.put .chains k v).get .chains x :=
    fun x hx => ZeroDb.get_put_of_ne _ _ _ hx
  have hk' : ∀ x, x ≠ k →
      ((db.put .chains k v).put .chains k' v').get .chains x = (db.put .chains k' v').get .chains x := by
    intro x hx
    simp only [ZeroDb.get_put, hx, and_false, if_false]
  constructor
  · intro h
    refine ⟨fun x hx => ?_, fun x hx => ?_⟩
    · by_cases hxk : x = k'
      · subst hxk
        exact absurd (ZeroDb.get_put_of_ne _ _ _ hne) hx
      · exact h x (by rw [hk x hxk]; exact hx)
    · by_cases hxk : x = k
      · subst hxk
        exact absurd (ZeroDb.get_put_of_ne _ _ _ (Ne.symm hne)) hx
      · exact h x (by rw [hk' x hxk]; exact hx)
  · intro ⟨h, h'⟩ x hx
    by_cases hxk : x = k'
    · subst hxk
      exact h' x (by rw [← hk' x hne]; exact hx)
    · exact h x (by rw [← hk x hxk]; exact hx)

/-- The conversation of the receiver's identity with a payload's sender. -/
def DmReceiver.conversationWith (blake3 : Bytes → Arr 32) (r : DmReceiver) (p : DmSectorPayload) : ConversationId :=
  ConversationId.derive blake3 r.identity p.senderIdentity

/-- The payload names that conversation, or its message is stored as it is
already; and the service's record of the conversation, if it is written, is
that conversation's. -/
def DmReceiver.StaysIn (blake3 : Bytes → Arr 32) (r : DmReceiver) (db : ZeroDb) (p : DmSectorPayload)
    (nowMs : UInt64) : Prop :=
  (p.conversationId = r.conversationWith blake3 p ∨
    db.get .chains (makeMsgKey p.conversationId p.messageId) = some (Message.codec.enc (p.toMessage nowMs))) ∧
  (ConversationId.derive blake3 r.service.identity p.senderIdentity = r.conversationWith blake3 p ∨
    hasContact db r.service p.senderIdentity = false ∨
    (db.get .chains (ConversationId.derive blake3 r.service.identity p.senderIdentity).storageKey).isSome)

theorem confined_inbound_iff (blake3 : Bytes → Arr 32) (r : DmReceiver) (db : ZeroDb) {bytes : Bytes}
    {p : DmSectorPayload} (hd : decodeDm bytes = .ok p) (now receiptMs : UInt64) (sectorId : SectorId)
    (enqueuedMs : UInt64) :
    Confined (r.conversationWith blake3 p) db
      (db.run (r.processInboundDm blake3 bytes now receiptMs sectorId enqueuedMs)).2 ↔ r.StaysIn blake3 db p now := by
  rw [run_inbound_snd blake3 db r hd, Confined.of_cf_eq (Outbox.enqueue_cf _ _ _ (by decide))]
  have hmsg : ∀ db' : ZeroDb, (db'.run (storeMessage (p.toMessage now))).2 =
      db'.put .chains (makeMsgKey p.conversationId p.messageId) (Message.codec.enc (p.toMessage now)) := fun _ => rfl
  rw [hmsg]
  unfold DmReceiver.StaysIn
  rcases openConversation_cases blake3 db r.service p.senderIdentity with
    ⟨hc, e, -, hrun⟩ | ⟨hc, b, hb, hrun⟩ | ⟨hc, hnone, hrun⟩
  · rw [hrun, confined_put_iff, owns_makeMsgKey]
    simp only [hc, true_or, or_true, and_true]
  · rw [hrun, confined_put_iff, owns_makeMsgKey]
    simp only [hb, Option.isSome_some, or_true, and_true]
  · have hfresh : ∀ {q : Prop} {v : Bytes}, (q ∨ (none : Option Bytes) = some v) ↔ q := by
      intro q v
      exact or_iff_left fun h => by cases h
    rw [hrun, confined_put_put_iff (storageKey_ne _ _ _).symm, confined_put_iff, confined_put_iff, owns_storageKey,
      owns_makeMsgKey, hnone, hfresh, and_comm]
    simp [hc]

/-! ## Runs -/

/-- What a call can write: a message it sends, the message of an inbound
payload, or a stored message with another status. -/
inductive Writes (db : ZeroDb) : Call → Message → Prop
  | send {c text nowMs id sectorId m} (hc : m.conversationId = c) (hid : m.id = id) :
    Writes db (.sendText c text nowMs id sectorId) m
  | inbound {bytes nowMs receiptMs sectorId enqueuedMs p m} (hd : decodeDm bytes = .ok p) (hm : m = p.toMessage nowMs) :
    Writes db (.processInboundDm bytes nowMs receiptMs sectorId enqueuedMs) m
  | status {call m m₀} (hm₀ : messageAt db m.conversationId m.id = some m₀) (hs : m.senderIdentity = m₀.senderIdentity) :
    Writes db call m

theorem writes_updateStatus {db : ZeroDb} (hw : WellKeyed db) (call : Call) (c : ConversationId) (id : MessageId)
    (new : MessageStatus) (now : UInt64) :
    ∃ o, Update db (db.run (updateStatus c id new now)).2 o ∧ ∀ m, o = some m → Writes db call m := by
  rcases update_updateStatus db c id new now with ⟨e, hrun, -⟩ | ⟨m, hm, -, hrun⟩
  · rw [hrun]
    exact ⟨none, .refl db, fun m h => by cases h⟩
  · rw [hrun]
    refine ⟨_, update_storeMessage db _, fun m' h => ?_⟩
    cases h
    obtain ⟨rfl, rfl⟩ := hw.own hm
    exact .status hm rfl

theorem call_writes (blake3 : Bytes → Arr 32) (r : DmReceiver) {db : ZeroDb} (hw : WellKeyed db) (call : Call) :
    ∃ o, Update db (call.run blake3 r db) o ∧ ∀ m, o = some m → Writes db call m := by
  cases call with
  | sendText c text now id sectorId =>
    simp only [Call.run]
    rcases update_sendText db r.service c text now id sectorId with hsame | hupd
    · rw [hsame]
      exact ⟨none, .refl db, fun m h => by cases h⟩
    · refine ⟨_, hupd, fun m h => ?_⟩
      cases h
      exact .send rfl rfl
  | processInboundDm bytes now receiptMs sectorId enqueuedMs =>
    simp only [Call.run]
    cases hd : decodeDm bytes with
    | error e =>
      rw [run_inbound_error blake3 db r hd]
      exact ⟨none, .refl db, fun m h => by cases h⟩
    | ok p =>
      refine ⟨_, update_inbound blake3 db r hd now receiptMs sectorId enqueuedMs, fun m h => ?_⟩
      cases h
      exact .inbound hd rfl
  | processReceipt receipt now => exact writes_updateStatus hw _ _ _ _ _
  | acknowledgeSent c id now => exact writes_updateStatus hw _ _ _ _ _
  | markRead c id updatedMs now =>
    obtain ⟨o, hu, ho⟩ := writes_updateStatus hw (.markRead c id updatedMs now) c id .read updatedMs
    simp only [Call.run, DmService.markRead]
    exact ⟨o, .bind_pure hu, ho⟩
  | markReadAndEmit c id outbox updatedMs now sectorId enqueuedMs =>
    obtain ⟨o, hu, ho⟩ := writes_updateStatus hw (.markReadAndEmit c id outbox updatedMs now sectorId enqueuedMs) c id
      .read updatedMs
    have hmark : Update db (db.run (r.service.markRead c id updatedMs now)).2 o := .bind_pure hu
    simp only [Call.run, DmService.markReadAndEmit]
    refine ⟨o, .bind (fun receipt _ => ?_) hmark, ho⟩
    exact .bind_pure (hmark.then_none (update_enqueueReceipt _ outbox receipt sectorId enqueuedMs))

/-- Every inbound payload of the run names the conversation with its sender. -/
def NamesSender (blake3 : Bytes → Arr 32) (r : DmReceiver) (calls : List Call) : Prop :=
  ∀ bytes nowMs receiptMs sectorId enqueuedMs, .processInboundDm bytes nowMs receiptMs sectorId enqueuedMs ∈ calls →
    ∀ p, decodeDm bytes = .ok p → p.conversationId = r.conversationWith blake3 p

/-- A stored message is where it belongs: sent in the run under its
conversation and id, or in the conversation with its sender. -/
def Placed (blake3 : Bytes → Arr 32) (r : DmReceiver) (calls : List Call) (c : ConversationId) (id : MessageId)
    (m : Message) : Prop :=
  (∃ text nowMs sectorId, .sendText c text nowMs id sectorId ∈ calls) ∨
    c = ConversationId.derive blake3 r.identity m.senderIdentity

theorem run_placed (blake3 : Bytes → Arr 32) (r : DmReceiver) (calls : List Call) (h : NamesSender blake3 r calls) :
    WellKeyed (runCalls blake3 r ZeroDb.empty calls) ∧
      ∀ c id m, messageAt (runCalls blake3 r ZeroDb.empty calls) c id = some m → Placed blake3 r calls c id m := by
  induction calls using List.reverseRecOn with
  | nil => exact ⟨fun k v hv => (by cases hv), fun c id m hm => by cases hm⟩
  | append_singleton calls call ih =>
    obtain ⟨hw, hplaced⟩ := ih fun bytes nowMs receiptMs sectorId enqueuedMs hmem =>
      h bytes nowMs receiptMs sectorId enqueuedMs (List.mem_append_left _ hmem)
    have hrun : runCalls blake3 r ZeroDb.empty (calls ++ [call]) =
        call.run blake3 r (runCalls blake3 r ZeroDb.empty calls) := by
      rw [runCalls, List.foldl_append]
      rfl
    have grow : ∀ {c id m}, Placed blake3 r calls c id m → Placed blake3 r (calls ++ [call]) c id m := by
      intro c id m hp
      refine hp.imp_left ?_
      rintro ⟨text, nowMs, sectorId, hmem⟩
      exact ⟨text, nowMs, sectorId, List.mem_append_left _ hmem⟩
    obtain ⟨o, hu, ho⟩ := call_writes blake3 r hw call
    rw [hrun]
    refine ⟨hu.wellKeyed hw, fun c id m hm => ?_⟩
    rcases hu.stored hm with hold | ⟨rfl, rfl, rfl⟩
    · exact grow (hplaced c id m hold)
    · cases ho m rfl with
      | send hc hid =>
        subst hc hid
        exact .inl ⟨_, _, _, List.mem_append_right _ (List.mem_singleton.mpr rfl)⟩
      | inbound hd hm =>
        subst hm
        exact .inr (h _ _ _ _ _ (List.mem_append_right _ (List.mem_singleton.mpr rfl)) _ hd)
      | status hm₀ hs =>
        refine (grow (hplaced _ _ _ hm₀)).imp_right fun hc => ?_
        rw [hs]
        exact hc

/-- **Inbound confinement.** On any database, an inbound call that returns
`Ok` changes only keys of the conversation of the receiver's identity with
the payload's sender if and only if the payload stays in it (`StaysIn`). And
in every run from an empty database whose inbound payloads name that
conversation, every message not sent in the run is in the conversation of
the receiver's identity with the message's sender. -/
theorem inbound_confined (blake3 : Bytes → Arr 32) (r : DmReceiver) :
    (∀ db bytes nowMs receiptMs sectorId enqueuedMs id,
      (db.run (r.processInboundDm blake3 bytes nowMs receiptMs sectorId enqueuedMs)).1 = .ok id →
      ∃ p, decodeDm bytes = .ok p ∧
        (Confined (r.conversationWith blake3 p) db
          (db.run (r.processInboundDm blake3 bytes nowMs receiptMs sectorId enqueuedMs)).2 ↔
          r.StaysIn blake3 db p nowMs)) ∧
    ∀ calls, NamesSender blake3 r calls → ∀ c id m,
      messageAt (runCalls blake3 r ZeroDb.empty calls) c id = some m → Placed blake3 r calls c id m := by
  refine ⟨fun db bytes nowMs receiptMs sectorId enqueuedMs id hok => ?_, fun calls h => (run_placed blake3 r calls h).2⟩
  cases hd : decodeDm bytes with
  | error e =>
    rw [run_inbound_error blake3 db r hd] at hok
    cases hok
  | ok p => exact ⟨p, rfl, confined_inbound_iff blake3 r db hd nowMs receiptMs sectorId enqueuedMs⟩

/-- `hello`, in the conversation with its sender. -/
def helloNamed : DmSectorPayload :=
  { hello with conversationId := ConversationId.derive itself stranger.identity hello.senderIdentity }

theorem inbound_confined_named :
    let r := (ZeroDb.empty.run (stranger.processInboundDm itself (DmSectorPayload.codec.enc helloNamed) 10 10
      ⟨Arr.fill 16 1⟩ 10))
    r.1 = .ok hello.messageId ∧ Confined (stranger.conversationWith itself helloNamed) ZeroDb.empty r.2 := by
  intro r
  have hok : r.1 = .ok hello.messageId := by decide +kernel
  obtain ⟨p, hp, hiff⟩ := (inbound_confined itself stranger).1 _ _ _ _ _ _ _ hok
  have hd : decodeDm (DmSectorPayload.codec.enc helloNamed) = .ok helloNamed := decodeDm_enc _
  rw [hd] at hp
  cases hp
  exact ⟨hok, hiff.mpr ⟨.inl rfl, .inl rfl⟩⟩

/-- `hello` comes from `id(2)` and names a conversation of its own choice: it
is stored there, and not in the conversation with `id(2)`. -/
theorem inbound_names_conversation :
    let call := Call.processInboundDm (DmSectorPayload.codec.enc hello) 10 10 ⟨Arr.fill 16 1⟩ 10
    let db := runCalls itself stranger ZeroDb.empty [call]
    (ZeroDb.empty.run (stranger.processInboundDm itself (DmSectorPayload.codec.enc hello) 10 10 ⟨Arr.fill 16 1⟩ 10)).1 =
        .ok hello.messageId ∧
      db.get .chains (makeMsgKey hello.conversationId hello.messageId) ≠
        ZeroDb.empty.get .chains (makeMsgKey hello.conversationId hello.messageId) ∧
      ¬ Owns (stranger.conversationWith itself hello) (makeMsgKey hello.conversationId hello.messageId) ∧
      (messageAt db hello.conversationId hello.messageId).map (·.senderIdentity) = some hello.senderIdentity ∧
      hello.conversationId ≠ ConversationId.derive itself stranger.identity hello.senderIdentity := by
  refine ⟨by decide +kernel, by decide +kernel, fun h => ?_, by decide +kernel, by decide +kernel⟩
  exact absurd (owns_makeMsgKey.mp h) (by decide +kernel)

end ZeroSdk.Dm
