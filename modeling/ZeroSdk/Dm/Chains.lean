/-
What the direct-message operations do to `CF_CHAINS`. Every key there is a
conversation's or a message's, and a message is stored under its own
conversation and id (`WellKeyed`). Each operation keeps that and writes at
most one message: `Update db db' o` says that `db'` has the messages of `db`
with `o` written over, if `o` is one. The lemmas below give the `o` of each
operation, so that a property of message histories is shown by looking at
the messages written.
-/
import ZeroSdk.Dm.Service

namespace ZeroSdk.Dm
open DmService

/-! ## Keys -/

theorem msgKeyPrefix_length : msgKeyPrefix.length = 7 := rfl

theorem makeMsgPrefix_length (c : ConversationId) : (makeMsgPrefix c).length = 39 := by
  rw [makeMsgPrefix, List.length_append, msgKeyPrefix_length, c.bytes.property]

theorem makeMsgKey_eq (c : ConversationId) (id : MessageId) : makeMsgKey c id = makeMsgPrefix c ++ id.bytes.val := rfl

theorem makeMsgKey_length (c : ConversationId) (id : MessageId) : (makeMsgKey c id).length = 55 := by
  rw [makeMsgKey_eq, List.length_append, makeMsgPrefix_length, id.bytes.property]

theorem storageKey_length (c : ConversationId) : c.storageKey.length = 35 := by
  rw [ConversationId.storageKey, List.length_append, c.bytes.property]
  rfl

theorem storageKey_inj {c c' : ConversationId} (h : c.storageKey = c'.storageKey) : c = c' := by
  have := List.append_cancel_left h
  cases c; cases c'
  exact congrArg _ (Subtype.ext this)

theorem makeMsgPrefix_inj {c c' : ConversationId} (h : makeMsgPrefix c = makeMsgPrefix c') : c = c' := by
  have := List.append_cancel_left h
  cases c; cases c'
  exact congrArg _ (Subtype.ext this)

theorem makeMsgPrefix_isPrefix_iff {c c' : ConversationId} {id : MessageId} :
    makeMsgPrefix c <+: makeMsgKey c' id ↔ c = c' := by
  constructor
  · intro ⟨t, ht⟩
    rw [makeMsgKey_eq] at ht
    exact makeMsgPrefix_inj (List.append_inj ht ((makeMsgPrefix_length c).trans (makeMsgPrefix_length c').symm)).1
  · intro h
    subst h
    exact List.prefix_append _ _

theorem makeMsgKey_inj {c c' : ConversationId} {id id' : MessageId} (h : makeMsgKey c id = makeMsgKey c' id') :
    c = c' ∧ id = id' := by
  have hc : c = c' := makeMsgPrefix_isPrefix_iff.mp (h ▸ makeMsgPrefix_isPrefix_iff.mpr rfl)
  subst hc
  have := List.append_cancel_left h
  cases id; cases id'
  exact ⟨rfl, congrArg _ (Subtype.ext this)⟩

theorem storageKey_ne (c c' : ConversationId) (id : MessageId) : c.storageKey ≠ makeMsgKey c' id := by
  intro h
  have := congrArg List.length h
  rw [storageKey_length, makeMsgKey_length] at this
  omega

/-! ## The messages of a database -/

/-- Every key of `CF_CHAINS` is a conversation's, or a message's own. -/
def WellKeyed (db : ZeroDb) : Prop :=
  ∀ k v, db.get .chains k = some v →
    (∃ c : ConversationId, k = c.storageKey) ∨ ∃ m : Message, k = makeMsgKey m.conversationId m.id ∧ v = Message.codec.enc m

/-- The message stored under a conversation and an id. -/
def messageAt (db : ZeroDb) (c : ConversationId) (id : MessageId) : Option Message :=
  (db.get .chains (makeMsgKey c id)).bind fun b => (decodeMessage b).toOption

@[simp] theorem decodeConversation_enc (conv : Conversation) :
    decodeConversation (Conversation.codec.enc conv) = .ok conv := by
  simp [decodeConversation, Except.mapError]

@[simp] theorem decodeMessage_enc (m : Message) : decodeMessage (Message.codec.enc m) = .ok m := by
  simp [decodeMessage, Except.mapError]

theorem messageAt_eq_some {db : ZeroDb} {c : ConversationId} {id : MessageId} {m : Message} :
    messageAt db c id = some m ↔ ∃ b, db.get .chains (makeMsgKey c id) = some b ∧ decodeMessage b = .ok m := by
  have hok : ∀ b, (decodeMessage b).toOption = some m ↔ decodeMessage b = .ok m := by
    intro b
    cases decodeMessage b <;> simp [Except.toOption]
  simp only [messageAt, Option.bind_eq_some_iff, hok]

theorem WellKeyed.get_eq {db : ZeroDb} (h : WellKeyed db) (c : ConversationId) (id : MessageId) :
    db.get .chains (makeMsgKey c id) = (messageAt db c id).map Message.codec.enc := by
  cases hv : db.get .chains (makeMsgKey c id) with
  | none => simp [messageAt, hv]
  | some v =>
    rcases h _ v hv with ⟨c', hk⟩ | ⟨m, -, rfl⟩
    · exact absurd hk.symm (storageKey_ne c' c id)
    · simp [messageAt, hv, Except.toOption]

theorem WellKeyed.own {db : ZeroDb} (h : WellKeyed db) {c : ConversationId} {id : MessageId} {m : Message}
    (hm : messageAt db c id = some m) : m.conversationId = c ∧ m.id = id := by
  have hv := h.get_eq c id
  rw [hm, Option.map_some] at hv
  rcases h _ _ hv with ⟨c', hk⟩ | ⟨m', hk, henc⟩
  · exact absurd hk.symm (storageKey_ne c' c id)
  · rw [Postcard.enc_injective _ henc]
    obtain ⟨rfl, rfl⟩ := makeMsgKey_inj hk
    exact ⟨rfl, rfl⟩

theorem run_getMessage {db : ZeroDb} (h : WellKeyed db) (c : ConversationId) (id : MessageId) :
    db.run (getMessage c id) = (.ok (messageAt db c id), db) := by
  have hv := h.get_eq c id
  unfold getMessage
  simp only [Prog.run_bind, run_getCf]
  cases hm : messageAt db c id with
  | none =>
    rw [hm] at hv
    simp only [hv]
    rfl
  | some m =>
    rw [hm] at hv
    simp only [hv, Option.map_some, Prog.run_bind, Prog.run_lift, decodeMessage_enc]
    rfl

/-- `get_message` returns what `messageAt` reads, or fails where that finds
nothing. -/
theorem run_getMessage_cases (db : ZeroDb) (c : ConversationId) (id : MessageId) :
    db.run (getMessage c id) = (.ok (messageAt db c id), db) ∨
      messageAt db c id = none ∧ ∃ e, db.run (getMessage c id) = (.error e, db) := by
  unfold getMessage messageAt
  simp only [Prog.run_bind, run_getCf]
  cases db.get .chains (makeMsgKey c id) with
  | none => exact .inl rfl
  | some b =>
    simp only [Prog.run_bind, Prog.run_lift, Option.bind_some]
    cases decodeMessage b with
    | ok m => exact .inl rfl
    | error e => exact .inr ⟨rfl, e, rfl⟩

/-! ## Updates -/

/-- `db'` is well keyed if `db` is, and has the messages of `db` except that
`o`, if there is one, is stored under its conversation and id. -/
structure Update (db db' : ZeroDb) (o : Option Message) : Prop where
  wellKeyed : WellKeyed db → WellKeyed db'
  messages : ∀ c id, messageAt db' c id =
    match o with
    | some m => if m.conversationId = c ∧ m.id = id then some m else messageAt db c id
    | none => messageAt db c id

theorem Update.stored {db db' : ZeroDb} {o : Option Message} (h : Update db db' o) {c : ConversationId} {id : MessageId}
    {m : Message} (hm : messageAt db' c id = some m) :
    messageAt db c id = some m ∨ o = some m ∧ m.conversationId = c ∧ m.id = id := by
  rw [h.messages] at hm
  cases o with
  | none => exact .inl hm
  | some new =>
    simp only at hm
    split at hm
    · next heq =>
      cases hm
      exact .inr ⟨rfl, heq⟩
    · exact .inl hm

theorem Update.written {db db' : ZeroDb} {new : Message} (h : Update db db' (some new)) :
    messageAt db' new.conversationId new.id = some new := by
  rw [h.messages]
  exact if_pos ⟨rfl, rfl⟩

theorem Update.of_cf_eq {db db' : ZeroDb} (h : db'.cf .chains = db.cf .chains) : Update db db' none := by
  have hget : ∀ k, db'.get .chains k = db.get .chains k := by
    intro k
    unfold ZeroDb.get
    rw [h]
  refine ⟨fun hw k v hv => hw k v (hget k ▸ hv), fun c id => ?_⟩
  simp only [messageAt, hget]

theorem Update.refl (db : ZeroDb) : Update db db none := .of_cf_eq rfl

theorem Update.then_none {db db₁ db₂ : ZeroDb} {o : Option Message} (h : Update db db₁ o) (h' : Update db₁ db₂ none) :
    Update db db₂ o :=
  ⟨fun hw => h'.wellKeyed (h.wellKeyed hw), fun c id => (h'.messages c id).trans (h.messages c id)⟩

theorem Update.after_none {db db₁ db₂ : ZeroDb} {o : Option Message} (h : Update db db₁ none) (h' : Update db₁ db₂ o) :
    Update db db₂ o := by
  refine ⟨fun hw => h'.wellKeyed (h.wellKeyed hw), fun c id => ?_⟩
  rw [h'.messages]
  cases o with
  | none => exact h.messages c id
  | some m => simp only [h.messages]

/-- The rule for two parts of a program, counted from `db₀`: what the first
part did already holds if it fails. -/
theorem Update.bind {ε α β : Type} {db₀ db : ZeroDb} {p : DbProg ε α} {f : α → DbProg ε β} {o : Option Message}
    (hok : ∀ a, (db.run p).1 = .ok a → Update db₀ ((db.run p).2.run (f a)).2 o) (herr : Update db₀ (db.run p).2 o) :
    Update db₀ (db.run (p >>= f)).2 o := ZeroDb.after_bind (fun db' => Update db₀ db' o) hok fun _ _ => herr

theorem Update.bind_pure {ε α β : Type} {db₀ db : ZeroDb} {p : DbProg ε α} {g : α → β} {o : Option Message}
    (h : Update db₀ (db.run p).2 o) : Update db₀ (db.run (p >>= fun a => pure (g a))).2 o := .bind (fun _ _ => h) h

theorem Update.put_conversation (db : ZeroDb) (c : ConversationId) (v : Bytes) :
    Update db (db.put .chains c.storageKey v) none := by
  refine ⟨fun hw k w hv => ?_, fun c' id => ?_⟩
  · by_cases hk : k = c.storageKey
    · exact .inl ⟨c, hk⟩
    · rw [ZeroDb.get_put_of_ne _ _ _ hk] at hv
      exact hw k w hv
  · simp only [messageAt, ZeroDb.get_put_of_ne _ _ _ (storageKey_ne c c' id).symm]

theorem Update.put_message (db : ZeroDb) (m : Message) :
    Update db (db.put .chains (makeMsgKey m.conversationId m.id) (Message.codec.enc m)) (some m) := by
  refine ⟨fun hw k w hv => ?_, fun c id => ?_⟩
  · by_cases hk : k = makeMsgKey m.conversationId m.id
    · subst hk
      rw [ZeroDb.get_put_self] at hv
      cases hv
      exact .inr ⟨m, rfl, rfl⟩
    · rw [ZeroDb.get_put_of_ne _ _ _ hk] at hv
      exact hw k w hv
  · by_cases hm : m.conversationId = c ∧ m.id = id
    · obtain ⟨rfl, rfl⟩ := hm
      simp [messageAt, Except.toOption]
    · have hk : makeMsgKey c id ≠ makeMsgKey m.conversationId m.id := by
        intro hk
        obtain ⟨rfl, rfl⟩ := makeMsgKey_inj hk
        exact hm ⟨rfl, rfl⟩
      simp only [messageAt, ZeroDb.get_put_of_ne _ _ _ hk, hm, if_false]

/-! ## The operations -/

theorem update_enqueue (db : ZeroDb) (outbox : Outbox) (e : OutboxEntry) :
    Update db (db.run (outbox.enqueue e)).2 none := .of_cf_eq (Outbox.enqueue_cf db outbox e (by decide))

theorem update_enqueueReceipt (db : ZeroDb) (outbox : Outbox) (r : ReceiptPayload) (sectorId : SectorId)
    (now : UInt64) : Update db (db.run (enqueueReceipt outbox r sectorId now)).2 none := by
  unfold enqueueReceipt
  have h := update_enqueue db outbox (outboxEntry sectorId r.toAllocvec now)
  refine Update.bind_pure ?_
  rw [ZeroDb.run_mapErr]
  exact h

/-- Whether the peer is in the service's address book. -/
def hasContact (db : ZeroDb) (s : DmService) (peer : IdentityId) : Bool :=
  match (db.run (s.contacts.getContact peer)).1 with
  | .ok (some _) => true
  | _ => false

/-- What `open_conversation` does: without the contact it fails, and not with
a storage error; with it, it returns the record of the conversation, or
stores a new one. -/
theorem openConversation_cases (blake3 : Bytes → Arr 32) (db : ZeroDb) (s : DmService) (peer : IdentityId) :
    (hasContact db s peer = false ∧
      ∃ e, (∀ e', e ≠ .storage e') ∧ db.run (s.openConversation blake3 peer) = (.error e, db)) ∨
    (hasContact db s peer = true ∧ ∃ b, db.get .chains (ConversationId.derive blake3 s.identity peer).storageKey = some b ∧
      db.run (s.openConversation blake3 peer) = (decodeConversation b, db)) ∨
    (hasContact db s peer = true ∧ db.get .chains (ConversationId.derive blake3 s.identity peer).storageKey = none ∧
      db.run (s.openConversation blake3 peer) = (.ok ⟨ConversationId.derive blake3 s.identity peer, peer, none⟩,
        db.put .chains (ConversationId.derive blake3 s.identity peer).storageKey
          (Conversation.codec.enc ⟨ConversationId.derive blake3 s.identity peer, peer, none⟩))) := by
  have hsame : (db.run (s.contacts.getContact peer)).2 = db := by rw [ContactStore.run_getContact]
  unfold openConversation hasContact
  simp only [Prog.run_bind, Prog.run_mapErr, hsame]
  cases (db.run (s.contacts.getContact peer)).1 with
  | error e => exact .inl ⟨rfl, .contact e, fun _ h => (by cases h), rfl⟩
  | ok contact =>
    cases contact with
    | none => exact .inl ⟨rfl, .contactNotFound peer, fun _ h => (by cases h), rfl⟩
    | some contact =>
      refine .inr ?_
      simp only [Except.mapError, Option.isNone_some, Bool.false_eq_true, if_false, Prog.run_bind, Prog.run_mapErr,
        run_getRaw]
      cases db.get .chains (ConversationId.derive blake3 s.identity peer).storageKey with
      | some b => exact .inl ⟨trivial, b, rfl, rfl⟩
      | none => exact .inr ⟨trivial, rfl, rfl⟩

theorem update_openConversation (blake3 : Bytes → Arr 32) (db : ZeroDb) (s : DmService) (peer : IdentityId) :
    Update db (db.run (s.openConversation blake3 peer)).2 none := by
  rcases openConversation_cases blake3 db s peer with ⟨-, e, -, hrun⟩ | ⟨-, b, -, hrun⟩ | ⟨-, -, hrun⟩
  · rw [hrun]
    exact .refl db
  · rw [hrun]
    exact .refl db
  · rw [hrun]
    exact .put_conversation db _ _

theorem resumeConversation_snd (db : ZeroDb) (c : ConversationId) : (db.run (resumeConversation c)).2 = db := by
  unfold resumeConversation
  simp only [Prog.run_bind, Prog.run_mapErr, run_getRaw, Except.mapError]
  cases db.get .chains c.storageKey <;> rfl

theorem update_saveConversation (db : ZeroDb) (conv : Conversation) :
    Update db (db.run (saveConversation conv)).2 none := .put_conversation db _ _

theorem update_storeMessage (db : ZeroDb) (m : Message) : Update db (db.run (storeMessage m)).2 (some m) :=
  .put_message db m

/-- `update_status` writes the message with the new status, if that is strictly
greater than the stored one, and else nothing. -/
theorem update_updateStatus (db : ZeroDb) (c : ConversationId) (id : MessageId) (new : MessageStatus) (now : UInt64) :
    (∃ e, db.run (updateStatus c id new now) = (.error e, db) ∧
      ∀ m, messageAt db c id = some m → ¬ m.status < new) ∨
    ∃ m, messageAt db c id = some m ∧ m.status < new ∧
      db.run (updateStatus c id new now) =
        db.run (storeMessage { m with status := new, statusUpdatedAtMs := now }) := by
  unfold updateStatus
  rcases run_getMessage_cases db c id with hread | ⟨hnone, e, hread⟩
  · simp only [Prog.run_bind, hread]
    cases hm : messageAt db c id with
    | none => exact .inl ⟨_, rfl, fun m h => by cases h⟩
    | some m =>
      simp only [Prog.run_okOr_some]
      by_cases hlt : m.status < new
      · have hv : m.status.isValidTransition new = true := by simpa [MessageStatus.isValidTransition] using hlt
        refine .inr ⟨m, rfl, hlt, ?_⟩
        rw [hv]
        rfl
      · have hv : m.status.isValidTransition new = false := by simpa [MessageStatus.isValidTransition] using hlt
        rw [hv]
        exact .inl ⟨_, rfl, fun m' h => Option.some.inj h ▸ hlt⟩
  · simp only [Prog.run_bind, hread]
    exact .inl ⟨e, rfl, fun m h => by rw [hnone] at h; cases h⟩

theorem sendText_refused {db : ZeroDb} {s : DmService} {c : ConversationId} {e : DmError}
    (h : (db.run (resumeConversation c)).1 = .error e) (text : Str) (now : UInt64) (id : MessageId)
    (sectorId : SectorId) : (db.run (s.sendText c text now id sectorId)).2 = db := by
  unfold sendText
  refine ZeroDb.after_bind (fun db' => db' = db) (fun conv hconv => ?_) fun _ _ => resumeConversation_snd db c
  rw [h] at hconv
  cases hconv

theorem update_sendText_ok {db : ZeroDb} {s : DmService} {c : ConversationId} {conv : Conversation}
    (h : (db.run (resumeConversation c)).1 = .ok conv) (text : Str) (now : UInt64) (id : MessageId)
    (sectorId : SectorId) :
    Update db (db.run (s.sendText c text now id sectorId)).2
      (some ⟨id, c, s.identity, s.machineId, text, .queued, now, now⟩) := by
  unfold sendText
  refine ZeroDb.after_bind (fun db' => Update db db' _) (fun conv _ => ?_) fun e he => ?_
  · rw [resumeConversation_snd]
    -- the message is stored first: nothing after that takes it away
    have hstore := update_storeMessage db ⟨id, c, s.identity, s.machineId, text, .queued, now, now⟩
    refine Update.bind (fun _ _ => ?_) hstore
    have henq := hstore.then_none (update_enqueue _ Outbox.new
      (outboxEntry sectorId (DmSectorPayload.mk id c s.identity s.machineId text now).toAllocvec now))
    refine Update.bind (fun _ _ => ?_) ?_
    · rw [ZeroDb.run_mapErr]
      have hsave := henq.then_none (update_saveConversation _ { conv with lastSector := some sectorId })
      exact Update.bind_pure hsave
    · rw [ZeroDb.run_mapErr]
      exact henq
  · rw [h] at he
    cases he

theorem update_sendText (db : ZeroDb) (s : DmService) (c : ConversationId) (text : Str) (now : UInt64) (id : MessageId)
    (sectorId : SectorId) :
    (db.run (s.sendText c text now id sectorId)).2 = db ∨
      Update db (db.run (s.sendText c text now id sectorId)).2
        (some ⟨id, c, s.identity, s.machineId, text, .queued, now, now⟩) := by
  cases hres : (db.run (resumeConversation c)).1 with
  | error e => exact .inl (sendText_refused hres text now id sectorId)
  | ok conv => exact .inr (update_sendText_ok hres text now id sectorId)

@[simp] theorem decodeDm_enc (p : DmSectorPayload) : decodeDm (DmSectorPayload.codec.enc p) = .ok p := by
  simp [decodeDm, Except.mapError]

theorem run_inbound_error (blake3 : Bytes → Arr 32) (db : ZeroDb) (r : DmReceiver) {bytes : Bytes} {e : DmError}
    (h : decodeDm bytes = .error e) (now receiptMs : UInt64) (sectorId : SectorId) (enqueuedMs : UInt64) :
    db.run (r.processInboundDm blake3 bytes now receiptMs sectorId enqueuedMs) = (.error e, db) := by
  unfold DmReceiver.processInboundDm
  simp only [Prog.run_bind, Prog.run_lift, h]

theorem openConversation_not_storage (blake3 : Bytes → Arr 32) (db : ZeroDb) (s : DmService) (peer : IdentityId)
    (e : StorageError) : (db.run (s.openConversation blake3 peer)).1 ≠ .error (.storage e) := by
  rcases openConversation_cases blake3 db s peer with ⟨-, e', hne, hrun⟩ | ⟨-, b, -, hrun⟩ | ⟨-, -, hrun⟩
  · rw [hrun]
    intro h
    exact hne e (Except.error.inj h)
  · rw [hrun]
    simp only [decodeConversation]
    cases Postcard.fromBytes Conversation.codec b <;> intro h <;> cases h
  · rw [hrun]
    intro h
    cases h

theorem run_enqueueReceipt (db : ZeroDb) (outbox : Outbox) (r : ReceiptPayload) (sectorId : SectorId) (now : UInt64) :
    db.run (enqueueReceipt outbox r sectorId now) =
      match db.run (outbox.enqueue (outboxEntry sectorId r.toAllocvec now)) with
      | (.ok _, db') => (.ok sectorId, db')
      | (.error e, db') => (.error (.storage e), db') := by
  unfold ZeroDb.run
  simp only [enqueueReceipt, Prog.run_bind, Prog.run_mapErr]
  rcases Prog.run ZeroDb.handle (outbox.enqueue _) db with ⟨_ | u, db'⟩ <;> rfl

/-- The outbox entry of the receipt for an inbound payload. -/
def DmReceiver.receiptEntry (r : DmReceiver) (p : DmSectorPayload) (receiptMs : UInt64) (sectorId : SectorId)
    (enqueuedMs : UInt64) : OutboxEntry :=
  outboxEntry sectorId
    (buildDeliveredReceipt p.messageId p.conversationId r.identity r.machineId receiptMs).toAllocvec enqueuedMs

/-- `process_inbound_dm` on bytes that decode opens the conversation with the
sender, stores the message, and is done when its receipt is queued. -/
theorem run_inbound (blake3 : Bytes → Arr 32) (db : ZeroDb) (r : DmReceiver) {bytes : Bytes} {p : DmSectorPayload}
    (h : decodeDm bytes = .ok p) (now receiptMs : UInt64) (sectorId : SectorId) (enqueuedMs : UInt64) :
    db.run (r.processInboundDm blake3 bytes now receiptMs sectorId enqueuedMs) =
      match ((db.run (r.service.openConversation blake3 p.senderIdentity)).2.run (storeMessage (p.toMessage now))).2.run
        (Outbox.new.enqueue (r.receiptEntry p receiptMs sectorId enqueuedMs)) with
      | (.ok _, db') => (.ok p.messageId, db')
      | (.error e, db') => (.error (.storage e), db') := by
  unfold DmReceiver.processInboundDm
  have hnot := openConversation_not_storage blake3 db r.service p.senderIdentity
  have hdec : db.run (Prog.lift (decodeDm bytes)) = (.ok p, db) := by rw [ZeroDb.run_lift, h]
  rw [ZeroDb.run_bind_ok hdec]
  rw [ZeroDb.run_bind_ok (ZeroDb.run_attempt db (r.service.openConversation blake3 p.senderIdentity))]
  split
  · next e he => exact absurd he (hnot e)
  · have hstore : ∀ db' : ZeroDb, db'.run (storeMessage (p.toMessage now)) =
        (.ok (), (db'.run (storeMessage (p.toMessage now))).2) := fun _ => rfl
    rw [ZeroDb.run_bind_ok (hstore _)]
    have henq := run_enqueueReceipt ((db.run (r.service.openConversation blake3 p.senderIdentity)).2.run
      (storeMessage (p.toMessage now))).2 Outbox.new
      (buildDeliveredReceipt p.messageId p.conversationId r.identity r.machineId receiptMs) sectorId enqueuedMs
    unfold ZeroDb.run at henq ⊢
    simp only [Prog.run_bind, henq, DmReceiver.receiptEntry]
    rcases Prog.run ZeroDb.handle (Outbox.new.enqueue _) _ with ⟨_ | u, db'⟩ <;> rfl

theorem run_inbound_snd (blake3 : Bytes → Arr 32) (db : ZeroDb) (r : DmReceiver) {bytes : Bytes} {p : DmSectorPayload}
    (h : decodeDm bytes = .ok p) (now receiptMs : UInt64) (sectorId : SectorId) (enqueuedMs : UInt64) :
    (db.run (r.processInboundDm blake3 bytes now receiptMs sectorId enqueuedMs)).2 =
      (((db.run (r.service.openConversation blake3 p.senderIdentity)).2.run (storeMessage (p.toMessage now))).2.run
        (Outbox.new.enqueue (r.receiptEntry p receiptMs sectorId enqueuedMs))).2 := by
  rw [run_inbound blake3 db r h]
  split <;> next heq => rw [heq]

theorem update_inbound (blake3 : Bytes → Arr 32) (db : ZeroDb) (r : DmReceiver) {bytes : Bytes} {p : DmSectorPayload}
    (h : decodeDm bytes = .ok p) (now receiptMs : UInt64) (sectorId : SectorId) (enqueuedMs : UInt64) :
    Update db (db.run (r.processInboundDm blake3 bytes now receiptMs sectorId enqueuedMs)).2
      (some (p.toMessage now)) := by
  rw [run_inbound_snd blake3 db r h]
  have hopen := update_openConversation blake3 db r.service p.senderIdentity
  exact (hopen.after_none (update_storeMessage _ (p.toMessage now))).then_none (update_enqueue _ _ _)

theorem WellKeyed.inbound {db : ZeroDb} (hw : WellKeyed db) (blake3 : Bytes → Arr 32) (r : DmReceiver) (bytes : Bytes)
    (now receiptMs : UInt64) (sectorId : SectorId) (enqueuedMs : UInt64) :
    WellKeyed (db.run (r.processInboundDm blake3 bytes now receiptMs sectorId enqueuedMs)).2 := by
  cases hd : decodeDm bytes with
  | error e =>
    rw [run_inbound_error blake3 db r hd]
    exact hw
  | ok p => exact (update_inbound blake3 db r hd now receiptMs sectorId enqueuedMs).wellKeyed hw

end ZeroSdk.Dm
