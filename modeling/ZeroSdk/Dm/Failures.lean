/-
What is left when a call fails half way. `send_text` stores the message, puts
it into the outbox and then records the sector, and `mark_read_and_emit`
stores the status and then puts a receipt into the outbox: three and two
writes, none of which is taken back when a later step fails. So with a full
outbox, or a RocksDB failure after the first write, `send_text` fails and
leaves a message nobody will send (`full_outbox_keeps_message`), and
`mark_read_and_emit` fails and leaves a message that is read, for which no
receipt can be made any more (`full_outbox_keeps_status`).

`send_atomic_iff` and `read_retryable_iff` say exactly when that happens,
in every state the service and the outbox can bring the database into.
-/
import ZeroSdk.Dm.Chains
import ZeroSdk.Storage.Faults
import ZeroSdk.Storage.RetryQueue

namespace ZeroSdk.Dm
open DmService
open ZeroDb (handleFaulty)

/-! ## Reachable states -/

/-- A call on a service, a receiver or the outbox. `process_receipt`,
`acknowledge_sent` and `mark_read` change what `update_status` changes. -/
inductive DmOp
  | openConversation (s : DmService) (peer : IdentityId)
  | saveConversation (conv : Conversation)
  | storeMessage (msg : Message)
  | updateStatus (c : ConversationId) (id : MessageId) (new : MessageStatus) (nowMs : UInt64)
  | markReadAndEmit (s : DmService) (c : ConversationId) (id : MessageId) (outbox : Outbox) (updatedMs nowMs : UInt64)
    (sectorId : SectorId) (enqueuedMs : UInt64)
  | sendText (s : DmService) (c : ConversationId) (text : Str) (nowMs : UInt64) (id : MessageId) (sectorId : SectorId)
  | processInboundDm (r : DmReceiver) (bytes : Bytes) (nowMs receiptMs : UInt64) (sectorId : SectorId)
    (enqueuedMs : UInt64)
  | queue (op : Outbox.Op)

/-- The call, its result dropped. -/
def DmOp.prog (blake3 : Bytes → Arr 32) : DmOp → DbProg DmError Unit
  | .openConversation s peer => do
    let _ ← s.openConversation blake3 peer
    pure ()
  | .saveConversation conv => DmService.saveConversation conv
  | .storeMessage msg => DmService.storeMessage msg
  | .updateStatus c id new nowMs => DmService.updateStatus c id new nowMs
  | .markReadAndEmit s c id outbox updatedMs nowMs sectorId enqueuedMs => do
    let _ ← s.markReadAndEmit c id outbox updatedMs nowMs sectorId enqueuedMs
    pure ()
  | .sendText s c text nowMs id sectorId => do
    let _ ← s.sendText c text nowMs id sectorId
    pure ()
  | .processInboundDm r bytes nowMs receiptMs sectorId enqueuedMs => do
    let _ ← r.processInboundDm blake3 bytes nowMs receiptMs sectorId enqueuedMs
    pure ()
  | .queue op => op.prog.mapErr .storage

/-- The states a new database can be brought into: by calls, with RocksDB
failing anywhere in them, and by whatever leaves conversations, messages and
the outbox alone. -/
inductive Reachable (blake3 : Bytes → Arr 32) : ZeroDb → Prop
  | new : Reachable blake3 ZeroDb.empty
  | call {db : ZeroDb} (op : DmOp) (faults : Faults) :
    Reachable blake3 db → Reachable blake3 ((op.prog blake3).run handleFaulty (db, faults)).2.1
  | elsewhere {db db' : ZeroDb} : db'.cf .chains = db.cf .chains → db'.cf .outbox = db.cf .outbox →
    Reachable blake3 db → Reachable blake3 db'

/-- Every key of `CF_CHAINS` is the own key of a conversation or of a message. -/
def OwnKeys (db : ZeroDb) : Prop :=
  ∀ k v, db.get .chains k = some v →
    (∃ conv : Conversation, k = conv.conversationId.storageKey ∧ v = Conversation.codec.enc conv) ∨
      ∃ m : Message, k = makeMsgKey m.conversationId m.id ∧ v = Message.codec.enc m

theorem OwnKeys.wellKeyed {db : ZeroDb} (h : OwnKeys db) : WellKeyed db := by
  intro k v hv
  rcases h k v hv with ⟨conv, hk, -⟩ | hm
  · exact .inl ⟨_, hk⟩
  · exact .inr hm

theorem OwnKeys.record {db : ZeroDb} (h : OwnKeys db) {c : ConversationId} {v : Bytes}
    (hv : db.get .chains c.storageKey = some v) :
    ∃ conv : Conversation, conv.conversationId = c ∧ v = Conversation.codec.enc conv := by
  rcases h _ v hv with ⟨conv, hk, hv⟩ | ⟨m, hk, -⟩
  · exact ⟨conv, (storageKey_inj hk).symm, hv⟩
  · exact absurd hk (storageKey_ne _ _ _)

theorem OwnKeys.of_cf_eq {db db' : ZeroDb} (h : OwnKeys db) (hcf : db'.cf .chains = db.cf .chains) : OwnKeys db' := by
  intro k v hv
  unfold ZeroDb.get at hv
  rw [hcf] at hv
  exact h k v hv

/-! ## What the calls keep -/

section Keeps
variable {P : ZeroDb → Prop}

/-- `P` is kept by writing a conversation under its own key, a message under
its own key, and anything to the outbox. -/
structure KeptByWrites (P : ZeroDb → Prop) : Prop where
  conversation : ∀ db (conv : Conversation), P db →
    P (db.put .chains conv.conversationId.storageKey (Conversation.codec.enc conv))
  message : ∀ db (m : Message), P db → P (db.put .chains (makeMsgKey m.conversationId m.id) (Message.codec.enc m))
  outbox : ∀ db k v, P db → P (db.put .outbox k v)
  unqueue : ∀ db k, P db → P (db.delete .outbox k)

theorem keeps_openConversation (h : ∀ db (conv : Conversation), P db →
      P (db.put .chains conv.conversationId.storageKey (Conversation.codec.enc conv)))
    (blake3 : Bytes → Arr 32) (s : DmService) (peer : IdentityId) : KeepsDb P (s.openConversation blake3 peer) := by
  have hcontact : KeepsDb P (s.contacts.getContact peer) := by
    unfold ContactStore.getContact
    refine (keeps_getRaw P _ _).attempt.bind fun v => ?_
    split
    · exact (Prog.Keeps.ret _).bind fun _ => .ret _
    · exact .ret _
    · exact .ret _
  unfold DmService.openConversation
  refine (hcontact.mapErr _).bind fun contact => ?_
  split
  · exact .ret _
  · refine ((keeps_getRaw P _ _).mapErr _).bind fun v => ?_
    split
    · exact .ret _
    · refine (Prog.Keeps.mapErr (keeps_putRaw ?_) _).bind fun _ => .ret _
      intro db hdb
      exact h db ⟨ConversationId.derive blake3 s.identity peer, peer, none⟩ hdb

variable (h : KeptByWrites P)
include h

theorem KeptByWrites.storeMessage (m : Message) : KeepsDb P (DmService.storeMessage m) :=
  Prog.Keeps.mapErr (keeps_putRaw fun db hdb => h.message db m hdb) _

theorem KeptByWrites.enqueue (outbox : Outbox) (entry : OutboxEntry) : KeepsDb P (outbox.enqueue entry) := by
  unfold Outbox.enqueue
  refine (keeps_getRaw P _ _).bind fun queued => ?_
  split
  · exact .ret _
  · refine (Outbox.keeps_count P).bind fun n => ?_
    split
    · exact .ret _
    · exact keeps_putRaw fun db hdb => h.outbox db _ _ hdb

theorem KeptByWrites.enqueueReceipt (outbox : Outbox) (receipt : ReceiptPayload) (sectorId : SectorId)
    (nowMs : UInt64) : KeepsDb P (Dm.enqueueReceipt outbox receipt sectorId nowMs) :=
  ((h.enqueue _ _).mapErr _).bind fun _ => .ret _

theorem KeptByWrites.updateStatus (c : ConversationId) (id : MessageId) (new : MessageStatus) (nowMs : UInt64) :
    KeepsDb P (DmService.updateStatus c id new nowMs) := by
  have hget : KeepsDb P (DmService.getMessage c id) := by
    unfold DmService.getMessage
    refine (keeps_op fun _ hdb => hdb).bind fun v => ?_
    split
    · exact (Prog.Keeps.ret _).bind fun _ => .ret _
    · exact .ret _
    · exact .ret _
  unfold DmService.updateStatus
  refine hget.bind fun m => (Prog.Keeps.okOr _ _).bind fun m => ?_
  split
  · exact .ret _
  · exact h.storeMessage _

theorem KeptByWrites.sendText (s : DmService) (c : ConversationId) (text : Str) (nowMs : UInt64) (id : MessageId)
    (sectorId : SectorId) : KeepsDb P (s.sendText c text nowMs id sectorId) := by
  have hresume : KeepsDb P (resumeConversation c) :=
    ((keeps_getRaw P _ _).mapErr _).bind fun _ => (Prog.Keeps.okOr _ _).bind fun _ => .ret _
  unfold DmService.sendText
  refine hresume.bind fun conv => (h.storeMessage _).bind fun _ => ((h.enqueue _ _).mapErr _).bind fun _ => ?_
  refine Prog.Keeps.bind (Prog.Keeps.mapErr (keeps_putRaw ?_) _) fun _ => .ret _
  intro db hdb
  exact h.conversation db { conv with lastSector := some sectorId } hdb

theorem KeptByWrites.processInboundDm (blake3 : Bytes → Arr 32) (r : DmReceiver) (bytes : Bytes)
    (nowMs receiptMs : UInt64) (sectorId : SectorId) (enqueuedMs : UInt64) :
    KeepsDb P (r.processInboundDm blake3 bytes nowMs receiptMs sectorId enqueuedMs) := by
  unfold DmReceiver.processInboundDm
  refine (Prog.Keeps.ret _).bind fun p => ?_
  refine (keeps_openConversation h.conversation blake3 r.service p.senderIdentity).attempt.bind fun opened => ?_
  split
  · exact .ret _
  · exact (h.storeMessage _).bind fun _ => (h.enqueueReceipt _ _ _ _).bind fun _ => .ret _

theorem KeptByWrites.outboxOp (op : Outbox.Op) : KeepsDb P op.prog := by
  cases op with
  | enqueue outbox entry => exact h.enqueue outbox entry
  | markAttempted id nextAttemptMs =>
    refine (keeps_getRaw P _ _).bind fun raw => (Prog.Keeps.okOr _ _).bind fun raw => (Prog.Keeps.ret _).bind fun e => ?_
    exact keeps_putRaw fun db hdb => h.outbox db _ _ hdb
  | remove id => exact (keeps_op (o := .delete .outbox id.bytes.val) fun db hdb => h.unqueue db _ hdb).bind fun _ => .ret _

theorem KeptByWrites.prog (blake3 : Bytes → Arr 32) (op : DmOp) : KeepsDb P (op.prog blake3) := by
  cases op with
  | openConversation s peer => exact (keeps_openConversation h.conversation blake3 s peer).bind fun _ => .ret _
  | saveConversation conv => exact Prog.Keeps.mapErr (keeps_putRaw fun db hdb => h.conversation db conv hdb) _
  | storeMessage msg => exact h.storeMessage msg
  | updateStatus c id new nowMs => exact h.updateStatus c id new nowMs
  | markReadAndEmit s c id outbox updatedMs nowMs sectorId enqueuedMs =>
    refine Prog.Keeps.bind (Prog.Keeps.bind ?_ fun receipt => ?_) fun _ => .ret _
    · exact (h.updateStatus c id .read updatedMs).bind fun _ => .ret _
    · exact (h.enqueueReceipt outbox receipt sectorId enqueuedMs).bind fun _ => .ret _
  | sendText s c text nowMs id sectorId => exact (h.sendText s c text nowMs id sectorId).bind fun _ => .ret _
  | processInboundDm r bytes nowMs receiptMs sectorId enqueuedMs =>
    exact (h.processInboundDm blake3 r bytes nowMs receiptMs sectorId enqueuedMs).bind fun _ => .ret _
  | queue op => exact (h.outboxOp op).mapErr _

end Keeps

theorem ownKeys_keptByWrites : KeptByWrites OwnKeys where
  conversation db conv h := by
    intro k v hv
    by_cases hk : k = conv.conversationId.storageKey
    · subst hk
      rw [ZeroDb.get_put_self] at hv
      exact .inl ⟨conv, rfl, (Option.some.inj hv).symm⟩
    · rw [ZeroDb.get_put_of_ne _ _ _ hk] at hv
      exact h k v hv
  message db m h := by
    intro k v hv
    by_cases hk : k = makeMsgKey m.conversationId m.id
    · subst hk
      rw [ZeroDb.get_put_self] at hv
      exact .inr ⟨m, rfl, (Option.some.inj hv).symm⟩
    · rw [ZeroDb.get_put_of_ne _ _ _ hk] at hv
      exact h k v hv
  outbox db k v h := h.of_cf_eq (db.cf_put_other _ _ (by decide))
  unqueue db k h := h.of_cf_eq (db.cf_delete_other _ (by decide))

theorem Reachable.ownKeys {blake3 : Bytes → Arr 32} {db : ZeroDb} (h : Reachable blake3 db) : OwnKeys db := by
  induction h with
  | new =>
    intro k v hv
    cases hv
  | call op faults _ ih => exact ownKeys_keptByWrites.prog blake3 op _ ih
  | elsewhere hc _ _ ih => exact ih.of_cf_eq hc

/-! ## A full outbox -/

/-- A conversation, and a message delivered in it. -/
def talk : Conversation := ⟨⟨Arr.fill 32 9⟩, ⟨Arr.fill 16 2⟩, none⟩

def heard : Message :=
  ⟨⟨Arr.fill 16 7⟩, talk.conversationId, talk.peerIdentity, ⟨Arr.fill 16 3⟩, Str.empty, .delivered, 5, 6⟩

/-- The database they are in. -/
def talking : ZeroDb :=
  (ZeroDb.empty.put .chains talk.conversationId.storageKey (Conversation.codec.enc talk)).put .chains
    (makeMsgKey heard.conversationId heard.id) (Message.codec.enc heard)

/-- The service that has them. -/
def talker : DmService := ⟨⟨Arr.fill 16 1⟩, ⟨Arr.fill 16 1⟩, ⟨⟨Arr.fill 16 1⟩⟩⟩

def sectorNo (i : Nat) : SectorId := ⟨⟨Bytes.be 16 i, Bytes.be_length 16 i⟩⟩

/-- And after `n` entries were queued. -/
def filled : Nat → ZeroDb
  | 0 => talking
  | n + 1 => ((filled n).run (Outbox.new.enqueue (outboxEntry (sectorNo n) Vec.empty 0))).2

theorem talking_reachable (blake3 : Bytes → Arr 32) : Reachable blake3 talking :=
  .call (.storeMessage heard) [] (.call (.saveConversation talk) [] .new)

/-- The outbox takes one entry after the other until it is full. -/
theorem filled_spec (blake3 : Bytes → Arr 32) {n : Nat} (hn : n ≤ defaultOutboxCapacity) :
    Reachable blake3 (filled n) ∧ (filled n).cf .chains = talking.cf .chains ∧
      ((filled n).cf .outbox).entries.length = n ∧
      ∀ i, n ≤ i → i < 256 ^ 16 → (filled n).get .outbox (sectorNo i).bytes.val = none := by
  induction n with
  | zero => exact ⟨talking_reachable blake3, rfl, rfl, fun _ _ _ => rfl⟩
  | succ n ih =>
    obtain ⟨hr, hchains, hlen, hfree⟩ := ih (by omega)
    unfold defaultOutboxCapacity at hn
    have hnew := hfree n le_rfl (by omega)
    have hrun : filled (n + 1) = (filled n).put .outbox (sectorNo n).bytes.val
        (OutboxEntry.codec.enc (outboxEntry (sectorNo n) Vec.empty 0)) := by
      have hroom : ¬ Outbox.new.capacity ≤ ((filled n).cf .outbox).entries.length := by
        rw [hlen]
        exact not_le.mpr (Nat.lt_of_succ_le hn)
      have hkey : (outboxEntry (sectorNo n) Vec.empty 0).sectorId = sectorNo n := rfl
      rw [filled, Outbox.run_enqueue, hkey, hnew, if_neg (by simp), if_neg hroom]
    refine ⟨?_, ?_, ?_, fun i hi hlt => ?_⟩
    · have hcall := Reachable.call (.queue (.enqueue Outbox.new (outboxEntry (sectorNo n) Vec.empty 0))) [] hr
      rw [run_handleFaulty_nil, DmOp.prog, ZeroDb.run_mapErr] at hcall
      exact hcall
    · rw [hrun, ZeroDb.cf_put_other _ _ _ (by decide), hchains]
    · rw [hrun, ZeroDb.cf_put_self, OrdMap.length_put hnew, hlen]
    · rw [hrun, ZeroDb.get_put_of_ne]
      · exact hfree i (by omega) hlt
      · intro heq
        have := Bytes.be_inj hlt (by omega) heq
        omega

/-! ## send_text -/

/-- After a failure conversations, messages and the outbox are as before.
After a success the message is stored as queued, the outbox has one entry
more, which decodes to it, and the conversation's last sector is that entry. -/
def SendAtomic (before after : ZeroDb) (c : ConversationId) (text : Str) : Except DmError MessageId → Prop
  | .error _ => after.cf .chains = before.cf .chains ∧ after.cf .outbox = before.cf .outbox
  | .ok id => ∃ (m : Message) (entry : OutboxEntry) (conv : Conversation),
    (messageAt after c id = some m ∧ m.status = .queued ∧ m.text = text) ∧
    (before.get .outbox entry.sectorId.bytes.val = none ∧
      after.cf .outbox = (before.cf .outbox).put entry.sectorId.bytes.val (OutboxEntry.codec.enc entry)) ∧
    decodeDm entry.payload.val = .ok ⟨id, c, m.senderIdentity, m.senderMachine, text, m.createdAtMs⟩ ∧
    (after.run (resumeConversation c)).1 = .ok conv ∧ conv.lastSector = some entry.sectorId

/-- The message is not stored (its conversation is unknown, or one of the
first two operations fails), or everything after that goes through: the
outbox has room, and none of the four operations left fails. -/
def SendsAllOrNothing (db : ZeroDb) (faults : Faults) (c : ConversationId) : Prop :=
  db.get .chains c.storageKey = none ∨ faults.nth 0 ≠ none ∨ faults.nth 1 ≠ none ∨
    Outbox.new.Takes db (faults.drop 2) ∧ faults.nth 5 = none

theorem run_resumeConversation_none {db : ZeroDb} {faults : Faults} (h : faults.nth 0 = none) (c : ConversationId) :
    (resumeConversation c).run handleFaulty (db, faults) =
      ((db.run (resumeConversation c)).1, (db, faults.drop 1)) := by
  unfold resumeConversation
  simp only [Prog.run_bind, Prog.run_mapErr, run_getRaw_none h, run_getRaw, Except.mapError]
  cases db.get .chains c.storageKey <;> rfl

section Send
variable {db : ZeroDb} {faults : Faults} {c : ConversationId}

theorem run_storeMessage_some {f : Fault} (h : faults.nth 0 = some f) (m : Message) :
    (storeMessage m).run handleFaulty (db, faults) = (.error (.storage (.rocks f.error)), (db, faults.drop 1)) := by
  unfold storeMessage
  rw [Prog.run_mapErr, run_putRaw_some h]
  rfl

theorem run_storeMessage_none (h : faults.nth 0 = none) (m : Message) :
    (storeMessage m).run handleFaulty (db, faults) =
      (.ok (), (db.put .chains (makeMsgKey m.conversationId m.id) (Message.codec.enc m), faults.drop 1)) := by
  unfold storeMessage
  rw [Prog.run_mapErr, run_putRaw_none h]
  rfl

theorem resume_unknown (h : db.get .chains c.storageKey = none) :
    (db.run (resumeConversation c)).1 = .error (.unknownConversation c) := by
  unfold resumeConversation
  simp only [Prog.run_bind, Prog.run_mapErr, run_getRaw, h, Except.mapError, Prog.run_okOr_none]

theorem resume_known {conv : Conversation} (h : db.get .chains c.storageKey = some (Conversation.codec.enc conv)) :
    (db.run (resumeConversation c)).1 = .ok conv := by
  unfold resumeConversation
  simp only [Prog.run_bind, Prog.run_mapErr, run_getRaw, h, Except.mapError, Prog.run_okOr_some, Prog.run_lift,
    decodeConversation_enc]

variable (s : DmService) (text : Str) (now : UInt64) (id : MessageId) (sectorId : SectorId)

/-- The message `send_text` makes. -/
def outgoing (c : ConversationId) : Message := ⟨id, c, s.identity, s.machineId, text, .queued, now, now⟩

/-- Its outbox entry. -/
def outgoingEntry (c : ConversationId) : OutboxEntry :=
  outboxEntry sectorId (DmSectorPayload.mk id c s.identity s.machineId text now).toAllocvec now

/-- Nothing is written before the message. -/
theorem run_sendText_early
    (h : db.get .chains c.storageKey = none ∨ faults.nth 0 ≠ none ∨ faults.nth 1 ≠ none) :
    ∃ e faults', (s.sendText c text now id sectorId).run handleFaulty (db, faults) = (.error e, (db, faults')) := by
  unfold DmService.sendText
  rw [Prog.run_bind]
  cases h₀ : faults.nth 0 with
  | some f =>
    unfold resumeConversation
    exact ⟨_, _, by rw [Prog.run_bind, Prog.run_mapErr, run_getRaw_some h₀]; rfl⟩
  | none =>
    rw [run_resumeConversation_none h₀]
    cases hres : (db.run (resumeConversation c)).1 with
    | error e => exact ⟨e, _, rfl⟩
    | ok conv =>
      have h₁ : faults.nth 1 ≠ none := by
        rcases h with h | h | h
        · rw [resume_unknown h] at hres
          cases hres
        · exact absurd h₀ h
        · exact h
      obtain ⟨f, hf⟩ := Option.ne_none_iff_exists'.mp h₁
      rw [← Faults.nth_drop_zero] at hf
      simp only [Prog.run_bind, run_storeMessage_some hf]
      exact ⟨_, _, rfl⟩

variable {sectorId} {conv : Conversation}
  (hconv : db.get .chains c.storageKey = some (Conversation.codec.enc conv)) (h₀ : faults.nth 0 = none)
  (h₁ : faults.nth 1 = none)
include hconv h₀ h₁

/-- Once the message is stored, what is left is to queue it and to save the
conversation. -/
theorem run_sendText_stored :
    (s.sendText c text now id sectorId).run handleFaulty (db, faults) =
      ((do (Outbox.new.enqueue (outgoingEntry s text now id sectorId c)).mapErr DmError.storage
           saveConversation { conv with lastSector := some sectorId }
           pure id) : DbProg DmError MessageId).run handleFaulty
        (db.put .chains (makeMsgKey c id) (Message.codec.enc (outgoing s text now id c)), faults.drop 2) := by
  have hresume : (resumeConversation c).run handleFaulty (db, faults) = (.ok conv, (db, faults.drop 1)) := by
    rw [run_resumeConversation_none h₀, resume_known hconv]
  rw [← Faults.nth_drop_zero] at h₁
  have hstore : (storeMessage (outgoing s text now id c)).run handleFaulty (db, faults.drop 1) = _ :=
    run_storeMessage_none h₁ _
  rw [List.drop_drop] at hstore
  unfold DmService.sendText
  rw [Prog.run_bind_ok _ hresume]
  exact Prog.run_bind_ok _ hstore

theorem run_sendText_late (hnew : db.get .outbox sectorId.bytes.val = none)
    (h : ¬ (Outbox.new.Takes db (faults.drop 2) ∧ faults.nth 5 = none)) :
    ∃ e db' faults', (s.sendText c text now id sectorId).run handleFaulty (db, faults) = (.error e, (db', faults')) ∧
      db'.get .chains (makeMsgKey c id) = some (Message.codec.enc (outgoing s text now id c)) := by
  rw [run_sendText_stored s text now id hconv h₀ h₁]
  have hnew₁ : db.get .outbox (outgoingEntry s text now id sectorId c).sectorId.bytes.val = none := hnew
  by_cases htakes : Outbox.new.Takes db (faults.drop 2)
  · obtain ⟨f, hf⟩ := Option.ne_none_iff_exists'.mp fun h₅ => h ⟨htakes, h₅⟩
    have hf : Faults.nth ((faults.drop 2).drop 3) 0 = some f := by
      rw [Faults.nth_drop, Faults.nth_drop]
      exact hf
    have hrun := Outbox.run_enqueue_takes_put htakes hnew₁ .chains (by decide)
    unfold saveConversation
    simp only [Prog.run_bind, Prog.run_mapErr, hrun, Except.mapError, run_putRaw_some hf]
    refine ⟨_, _, _, rfl, ?_⟩
    rw [ZeroDb.get_put_other _ _ _ _ (by decide), ZeroDb.get_put_self]
  · obtain ⟨e, faults', hrun⟩ := Outbox.run_enqueue_refuses_put htakes hnew₁ .chains (by decide)
      (makeMsgKey c id) (Message.codec.enc (outgoing s text now id c))
    simp only [Prog.run_bind, Prog.run_mapErr, hrun, Except.mapError]
    exact ⟨_, _, _, rfl, ZeroDb.get_put_self _ _ _ _⟩

theorem run_sendText_ok (hnew : db.get .outbox sectorId.bytes.val = none)
    (h : Outbox.new.Takes db (faults.drop 2) ∧ faults.nth 5 = none) :
    ∃ faults', (s.sendText c text now id sectorId).run handleFaulty (db, faults) =
      (.ok id, (((db.put .chains (makeMsgKey c id) (Message.codec.enc (outgoing s text now id c))).put .outbox
        sectorId.bytes.val (OutboxEntry.codec.enc (outgoingEntry s text now id sectorId c))).put .chains
        conv.conversationId.storageKey (Conversation.codec.enc { conv with lastSector := some sectorId }), faults')) := by
  rw [run_sendText_stored s text now id hconv h₀ h₁]
  obtain ⟨htakes, h₅⟩ := h
  have hnew₁ : db.get .outbox (outgoingEntry s text now id sectorId c).sectorId.bytes.val = none := hnew
  have h₅ : Faults.nth ((faults.drop 2).drop 3) 0 = none := by
    rw [Faults.nth_drop, Faults.nth_drop]
    exact h₅
  have hrun := Outbox.run_enqueue_takes_put htakes hnew₁ .chains (by decide)
  unfold saveConversation
  simp only [Prog.run_bind, Prog.run_mapErr, hrun, Except.mapError, run_putRaw_none h₅, Prog.run_pure]
  exact ⟨_, rfl⟩

end Send

/-- **When `send_text` is atomic.** In every reachable state, for every
conversation and text and every pattern of RocksDB failures, with ids drawn
that are not in use: exactly if the message is not stored at all or all of
the send goes through. -/
theorem send_atomic_iff {blake3 : Bytes → Arr 32} {db : ZeroDb} (hr : Reachable blake3 db) (faults : Faults)
    (s : DmService) (c : ConversationId) (text : Str) (now : UInt64) {id : MessageId} {sectorId : SectorId}
    (hid : messageAt db c id = none) (hsector : db.get .outbox sectorId.bytes.val = none) :
    let r := (s.sendText c text now id sectorId).run handleFaulty (db, faults)
    SendAtomic db r.2.1 c text r.1 ↔ SendsAllOrNothing db faults c := by
  intro r
  by_cases hearly : db.get .chains c.storageKey = none ∨ faults.nth 0 ≠ none ∨ faults.nth 1 ≠ none
  · obtain ⟨e, faults', hrun⟩ := run_sendText_early s text now id sectorId hearly
    have hr' : r = (.error e, (db, faults')) := hrun
    rw [hr']
    refine iff_of_true ⟨rfl, rfl⟩ ?_
    rcases hearly with h | h | h
    · exact .inl h
    · exact .inr (.inl h)
    · exact .inr (.inr (.inl h))
  · simp only [not_or, not_not] at hearly
    obtain ⟨hknown, h₀, h₁⟩ := hearly
    obtain ⟨v, hv⟩ := Option.ne_none_iff_exists'.mp hknown
    obtain ⟨conv, rfl, rfl⟩ := hr.ownKeys.record hv
    have hcond : SendsAllOrNothing db faults conv.conversationId ↔
        Outbox.new.Takes db (faults.drop 2) ∧ faults.nth 5 = none := by
      simp [SendsAllOrNothing, hv, h₀, h₁]
    rw [hcond]
    by_cases hall : Outbox.new.Takes db (faults.drop 2) ∧ faults.nth 5 = none
    · refine iff_of_true ?_ hall
      obtain ⟨faults', hrun⟩ := run_sendText_ok s text now id hv h₀ h₁ hsector hall
      have hr' : r = _ := hrun
      rw [hr']
      refine ⟨outgoing s text now id conv.conversationId, outgoingEntry s text now id sectorId conv.conversationId,
        { conv with lastSector := some sectorId }, ⟨?_, rfl, rfl⟩, ⟨hsector, ?_⟩, ?_, ?_, rfl⟩
      · rw [messageAt, ZeroDb.get_put_of_ne _ _ _ (storageKey_ne _ _ _).symm, ZeroDb.get,
          ZeroDb.cf_put_other _ _ _ (by decide)]
        change ((db.put .chains _ _).get .chains _).bind _ = _
        rw [ZeroDb.get_put_self, Option.bind_some, decodeMessage_enc]
        rfl
      · rw [ZeroDb.cf_put_other _ _ _ (by decide), ZeroDb.cf_put_self, ZeroDb.cf_put_other _ _ _ (by decide)]
        rfl
      · exact decodeDm_enc _
      · exact resume_known (ZeroDb.get_put_self _ _ _ _)
    · refine iff_of_false ?_ hall
      obtain ⟨e, db', faults', hrun, hmsg⟩ := run_sendText_late s text now id hv h₀ h₁ hsector hall
      have hr' : r = _ := hrun
      rw [hr']
      rintro ⟨hchains, -⟩
      rw [ZeroDb.get, hchains] at hmsg
      have hnone : db.get .chains (makeMsgKey conv.conversationId id) = none := by
        rw [hr.ownKeys.wellKeyed.get_eq, hid, Option.map_none]
      cases hnone.symm.trans hmsg

/-- A send that goes through. -/
theorem send_atomic_iff_talking :
    let r := (talker.sendText talk.conversationId Str.empty 8 ⟨Arr.fill 16 4⟩ (sectorNo 5)).run handleFaulty (talking, [])
    r.1 = .ok ⟨Arr.fill 16 4⟩ ∧ SendAtomic talking r.2.1 talk.conversationId Str.empty r.1 := by
  intro r
  have hall : SendsAllOrNothing talking [] talk.conversationId :=
    .inr (.inr (.inr ⟨⟨by decide, rfl, rfl, rfl⟩, rfl⟩))
  exact ⟨by decide +kernel, (send_atomic_iff (talking_reachable fun _ => Arr.fill 32 0) [] talker talk.conversationId
    Str.empty 8 (by decide +kernel) (by decide +kernel)).mpr hall⟩

theorem not_sendAtomic_of_full {db : ZeroDb} {s : DmService} {conv : Conversation} {text : Str} {now : UInt64}
    {id : MessageId} {sectorId : SectorId}
    (hconv : db.get .chains conv.conversationId.storageKey = some (Conversation.codec.enc conv))
    (hid : messageAt db conv.conversationId id = none) (hsector : db.get .outbox sectorId.bytes.val = none)
    (hfull : (db.cf .outbox).entries.length = defaultOutboxCapacity) :
    let r := db.run (s.sendText conv.conversationId text now id sectorId)
    ¬ SendAtomic db r.2 conv.conversationId text r.1 := by
  intro r hatomic
  have hlate : ¬ (Outbox.new.Takes db [] ∧ Faults.nth [] 5 = none) := by
    rintro ⟨⟨hroom, -⟩, -⟩
    rw [hfull] at hroom
    exact absurd hroom (lt_irrefl _)
  have h₀ : Faults.nth [] 0 = none := rfl
  have h₁ : Faults.nth [] 1 = none := rfl
  obtain ⟨e, db', faults', hrun, hmsg⟩ := run_sendText_late s text now id hconv h₀ h₁ hsector hlate
  have hr : r = (.error e, db') := run_of_handleFaulty_nil hrun
  rw [hr] at hatomic
  rw [ZeroDb.get, hatomic.1] at hmsg
  cases hid.symm.trans (messageAt_eq_some.mpr ⟨_, hmsg, decodeMessage_enc _⟩)

/-- A thousand sectors are waiting; the next send fails, and its message is
in the history. -/
theorem full_outbox_keeps_message :
    ∃ r, r = (filled defaultOutboxCapacity).run (talker.sendText talk.conversationId Str.empty 8 ⟨Arr.fill 16 4⟩
        (sectorNo defaultOutboxCapacity)) ∧
      Reachable (fun _ => Arr.fill 32 0) (filled defaultOutboxCapacity) ∧
      ¬ SendAtomic (filled defaultOutboxCapacity) r.2 talk.conversationId Str.empty r.1 := by
  obtain ⟨hr, hchains, hlen, hfree⟩ := filled_spec (fun _ => Arr.fill 32 0) (le_refl defaultOutboxCapacity)
  generalize filled defaultOutboxCapacity = full at hr hchains hlen hfree ⊢
  have hget : ∀ k, full.get .chains k = talking.get .chains k := by
    intro k
    rw [ZeroDb.get, hchains, ZeroDb.get]
  refine ⟨_, rfl, hr, not_sendAtomic_of_full ?_ ?_ (hfree _ le_rfl (by decide)) hlen⟩
  · rw [hget]
    decide +kernel
  · rw [messageAt, hget]
    decide +kernel

/-! ## mark_read_and_emit -/

/-- The call succeeds and puts one entry more into the outbox, a Read receipt
for the message. -/
def EmitsRead (s : DmService) (c : ConversationId) (id : MessageId) (before : ZeroDb) :
    Except DmError ReceiptPayload × ZeroDb → Prop
  | (result, after) => ∃ (receipt : ReceiptPayload) (entry : OutboxEntry),
    result = .ok receipt ∧ receipt = ⟨id, c, s.identity, s.machineId, .read, receipt.timestampMs⟩ ∧
    before.get .outbox entry.sectorId.bytes.val = none ∧
    after.cf .outbox = (before.cf .outbox).put entry.sectorId.bytes.val (OutboxEntry.codec.enc entry) ∧
    decodeReceipt entry.payload.val = .ok receipt

/-- A failed call leaves the status of the message as it was. In whatever
state the message is still the same and the outbox has room, a message that
was not read yet can then be marked as read with a receipt. -/
def ReadRetryable (blake3 : Bytes → Arr 32) (s : DmService) (c : ConversationId) (id : MessageId) (outbox : Outbox)
    (before after : ZeroDb) (result : Except DmError ReceiptPayload) : Prop :=
  ∀ e, result = .error e →
    (messageAt after c id).map (·.status) = (messageAt before c id).map (·.status) ∧
    ∀ m, messageAt before c id = some m → m.status < .read →
      ∀ db, Reachable blake3 db → messageAt db c id = messageAt after c id →
        (db.cf .outbox).entries.length < outbox.capacity → ∀ updatedMs nowMs sectorId enqueuedMs,
          db.get .outbox sectorId.bytes.val = none →
            EmitsRead s c id db (db.run (s.markReadAndEmit c id outbox updatedMs nowMs sectorId enqueuedMs))

/-- There is no message to mark, one of the first two operations fails (reading
the message, storing it), or the outbox takes the receipt. -/
def ReadsAllOrNothing (db : ZeroDb) (faults : Faults) (c : ConversationId) (id : MessageId) (outbox : Outbox) : Prop :=
  (∀ m, messageAt db c id = some m → ¬ m.status < .read) ∨ faults.nth 0 ≠ none ∨ faults.nth 1 ≠ none ∨
    outbox.Takes db (faults.drop 2)

section Read
variable {db : ZeroDb} {faults : Faults} {c : ConversationId} {id : MessageId}

theorem run_getMessage_some {f : Fault} (h : faults.nth 0 = some f) :
    (getMessage c id).run handleFaulty (db, faults) = (.error (.codec (.inr f.error)), (db, faults.drop 1)) := by
  unfold getMessage getCf
  rw [Prog.run_bind, Prog.run_call, handleFaulty_some h]
  rfl

theorem run_getMessage_none (hw : WellKeyed db) (h : faults.nth 0 = none) :
    (getMessage c id).run handleFaulty (db, faults) = (.ok (messageAt db c id), (db, faults.drop 1)) := by
  have hv := hw.get_eq c id
  unfold getMessage getCf
  rw [Prog.run_bind, Prog.run_call, handleFaulty_none h]
  simp only [ZeroDb.handle]
  cases hm : messageAt db c id with
  | none =>
    rw [hm] at hv
    rw [hv]
    rfl
  | some m =>
    rw [hm] at hv
    rw [hv]
    simp only [Option.map_some, Prog.run_bind, Prog.run_lift, decodeMessage_enc]
    rfl

/-- Without a message to advance, or with a failure, nothing is written. -/
theorem run_updateStatus_error (hw : WellKeyed db) {new : MessageStatus} (now : UInt64)
    (h : (∀ m, messageAt db c id = some m → ¬ m.status < new) ∨ faults.nth 0 ≠ none ∨ faults.nth 1 ≠ none) :
    ∃ e faults', (updateStatus c id new now).run handleFaulty (db, faults) = (.error e, (db, faults')) := by
  unfold updateStatus
  rw [Prog.run_bind]
  cases h₀ : faults.nth 0 with
  | some f =>
    rw [run_getMessage_some h₀]
    exact ⟨_, _, rfl⟩
  | none =>
    rw [run_getMessage_none hw h₀]
    cases hm : messageAt db c id with
    | none => exact ⟨_, _, rfl⟩
    | some m =>
      simp only [Prog.run_bind, Prog.run_okOr_some]
      cases hv : m.status.isValidTransition new with
      | false => exact ⟨_, _, rfl⟩
      | true =>
        have hlt : m.status < new := by simpa [MessageStatus.isValidTransition] using hv
        have h₁ : faults.nth 1 ≠ none := by
          rcases h with h | h | h
          · exact absurd hlt (h m hm)
          · exact absurd h₀ h
          · exact h
        obtain ⟨f, hf⟩ := Option.ne_none_iff_exists'.mp h₁
        rw [← Faults.nth_drop_zero] at hf
        simp only [Bool.not_true, Bool.false_eq_true, if_false, run_storeMessage_some hf]
        exact ⟨_, _, rfl⟩

theorem run_updateStatus_ok (hw : WellKeyed db) {new : MessageStatus} (now : UInt64) {m : Message}
    (hm : messageAt db c id = some m) (hlt : m.status < new) (h₀ : faults.nth 0 = none) (h₁ : faults.nth 1 = none) :
    (updateStatus c id new now).run handleFaulty (db, faults) =
      (.ok (), (db.put .chains (makeMsgKey c id)
        (Message.codec.enc { m with status := new, statusUpdatedAtMs := now }), faults.drop 2)) := by
  have hv : m.status.isValidTransition new = true := by simpa [MessageStatus.isValidTransition] using hlt
  obtain ⟨rfl, rfl⟩ := hw.own hm
  rw [← Faults.nth_drop_zero] at h₁
  unfold updateStatus
  rw [Prog.run_bind_ok _ (run_getMessage_none hw h₀), hm, Prog.run_bind_ok _ (Prog.run_okOr_some _ _ _ _), hv,
    Bool.not_true, if_neg (by decide), run_storeMessage_none h₁, List.drop_drop]

variable (s : DmService) (outbox : Outbox) (updatedMs nowMs : UInt64) (sectorId : SectorId) (enqueuedMs : UInt64)

/-- Nothing is written before the status. -/
theorem run_markReadAndEmit_early (hw : WellKeyed db)
    (h : (∀ m, messageAt db c id = some m → ¬ m.status < .read) ∨ faults.nth 0 ≠ none ∨ faults.nth 1 ≠ none) :
    ∃ e faults', (s.markReadAndEmit c id outbox updatedMs nowMs sectorId enqueuedMs).run handleFaulty (db, faults) =
      (.error e, (db, faults')) := by
  obtain ⟨e, faults', hrun⟩ := run_updateStatus_error hw updatedMs h
  unfold DmService.markReadAndEmit DmService.markRead
  simp only [Prog.run_bind, hrun]
  exact ⟨_, _, rfl⟩

section Marked
variable {outbox sectorId} (hw : WellKeyed db) {m : Message} (hm : messageAt db c id = some m) (hlt : m.status < .read)
  (h₀ : faults.nth 0 = none) (h₁ : faults.nth 1 = none) (hnew : db.get .outbox sectorId.bytes.val = none)
include hw hm hlt h₀ h₁ hnew

theorem run_markReadAndEmit_late (h : ¬ outbox.Takes db (faults.drop 2)) :
    ∃ e db' faults',
      (s.markReadAndEmit c id outbox updatedMs nowMs sectorId enqueuedMs).run handleFaulty (db, faults) =
        (.error e, (db', faults')) ∧ (messageAt db' c id).map (·.status) = some .read := by
  have hupdate := run_updateStatus_ok hw updatedMs hm hlt h₀ h₁
  have hnew₁ : db.get .outbox (outboxEntry sectorId
      (ReceiptPayload.mk id c s.identity s.machineId .read nowMs).toAllocvec enqueuedMs).sectorId.bytes.val = none := hnew
  obtain ⟨e, faults', hrun⟩ := Outbox.run_enqueue_refuses_put h hnew₁ .chains (by decide)
      (makeMsgKey c id) (Message.codec.enc { m with status := .read, statusUpdatedAtMs := updatedMs })
  unfold DmService.markReadAndEmit DmService.markRead enqueueReceipt
  simp only [Prog.run_bind, hupdate, Prog.run_pure, Prog.run_mapErr, hrun, Except.mapError]
  refine ⟨_, _, _, rfl, ?_⟩
  rw [messageAt, ZeroDb.get_put_self, Option.bind_some, decodeMessage_enc]
  rfl

theorem run_markReadAndEmit_ok (h : outbox.Takes db (faults.drop 2)) :
    ∃ db' faults',
      (s.markReadAndEmit c id outbox updatedMs nowMs sectorId enqueuedMs).run handleFaulty (db, faults) =
        (.ok ⟨id, c, s.identity, s.machineId, .read, nowMs⟩, (db', faults')) ∧
      db'.cf .outbox = (db.cf .outbox).put sectorId.bytes.val (OutboxEntry.codec.enc (outboxEntry sectorId
        (ReceiptPayload.mk id c s.identity s.machineId .read nowMs).toAllocvec enqueuedMs)) := by
  have hupdate := run_updateStatus_ok hw updatedMs hm hlt h₀ h₁
  have hnew₁ : db.get .outbox (outboxEntry sectorId
      (ReceiptPayload.mk id c s.identity s.machineId .read nowMs).toAllocvec enqueuedMs).sectorId.bytes.val = none := hnew
  have hrun := Outbox.run_enqueue_takes_put h hnew₁ .chains (by decide)
  unfold DmService.markReadAndEmit DmService.markRead enqueueReceipt
  simp only [Prog.run_bind, hupdate, Prog.run_pure, Prog.run_mapErr, hrun, Except.mapError]
  refine ⟨_, _, rfl, ?_⟩
  rw [ZeroDb.cf_put_self, ZeroDb.cf_put_other _ _ _ (by decide)]
  rfl

end Marked

end Read

/-- A message that is not read yet is marked and its receipt queued, if the
outbox has room and nothing fails. -/
theorem emitsRead_of_room {db : ZeroDb} (hw : WellKeyed db) {c : ConversationId} {id : MessageId} {m : Message}
    (hm : messageAt db c id = some m) (hlt : m.status < .read) {outbox : Outbox}
    (hroom : (db.cf .outbox).entries.length < outbox.capacity) (s : DmService) (updatedMs nowMs : UInt64)
    {sectorId : SectorId} (hnew : db.get .outbox sectorId.bytes.val = none) (enqueuedMs : UInt64) :
    EmitsRead s c id db (db.run (s.markReadAndEmit c id outbox updatedMs nowMs sectorId enqueuedMs)) := by
  have h₀ : Faults.nth [] 0 = none := rfl
  have h₁ : Faults.nth [] 1 = none := rfl
  obtain ⟨db', faults', hrun, houtbox⟩ := run_markReadAndEmit_ok s updatedMs nowMs enqueuedMs hw hm hlt h₀ h₁ hnew
    ⟨hroom, rfl, rfl, rfl⟩
  rw [run_of_handleFaulty_nil hrun]
  refine ⟨_, outboxEntry sectorId _ enqueuedMs, rfl, rfl, hnew, houtbox, ?_⟩
  simp [outboxEntry, ReceiptPayload.toAllocvec, decodeReceipt, Except.mapError]

/-- **When a read receipt can be tried again.** In every reachable state, for
every message, outbox and pattern of RocksDB failures, with a sector id drawn
that is not in use: exactly if there is no message to mark, or it is not
stored, or the outbox takes the receipt. -/
theorem read_retryable_iff {blake3 : Bytes → Arr 32} {db : ZeroDb} (hr : Reachable blake3 db) (faults : Faults)
    (s : DmService) (c : ConversationId) (id : MessageId) (outbox : Outbox) (updatedMs nowMs : UInt64)
    {sectorId : SectorId} (hsector : db.get .outbox sectorId.bytes.val = none) (enqueuedMs : UInt64) :
    let r := (s.markReadAndEmit c id outbox updatedMs nowMs sectorId enqueuedMs).run handleFaulty (db, faults)
    ReadRetryable blake3 s c id outbox db r.2.1 r.1 ↔ ReadsAllOrNothing db faults c id outbox := by
  intro r
  have hw := hr.ownKeys.wellKeyed
  by_cases hearly : (∀ m, messageAt db c id = some m → ¬ m.status < .read) ∨ faults.nth 0 ≠ none ∨ faults.nth 1 ≠ none
  · obtain ⟨e, faults', hrun⟩ := run_markReadAndEmit_early s outbox updatedMs nowMs sectorId enqueuedMs hw hearly
    have hr' : r = (.error e, (db, faults')) := hrun
    rw [hr']
    refine iff_of_true (fun _ _ => ⟨rfl, ?_⟩) ?_
    · intro m hm hlt db' hr₁ hsame hroom updatedMs' nowMs' sectorId' enqueuedMs' hnew
      exact emitsRead_of_room hr₁.ownKeys.wellKeyed (hsame.trans hm) hlt hroom s updatedMs' nowMs' hnew enqueuedMs'
    · rcases hearly with h | h | h
      · exact .inl h
      · exact .inr (.inl h)
      · exact .inr (.inr (.inl h))
  · simp only [not_or, not_forall, not_not] at hearly
    obtain ⟨⟨m, hm, hlt⟩, h₀, h₁⟩ := hearly
    have hcond : ReadsAllOrNothing db faults c id outbox ↔ outbox.Takes db (faults.drop 2) := by
      simp [ReadsAllOrNothing, hm, hlt, h₀, h₁]
    rw [hcond]
    by_cases htakes : outbox.Takes db (faults.drop 2)
    · obtain ⟨db', faults', hrun, -⟩ := run_markReadAndEmit_ok s updatedMs nowMs enqueuedMs hw hm hlt h₀ h₁ hsector
        htakes
      have hr' : r = _ := hrun
      rw [hr']
      exact iff_of_true (fun e he => by cases he) htakes
    · obtain ⟨e, db', faults', hrun, hstatus⟩ := run_markReadAndEmit_late s updatedMs nowMs enqueuedMs hw hm hlt h₀
        h₁ hsector htakes
      have hr' : r = _ := hrun
      rw [hr']
      refine iff_of_false (fun hretry => ?_) htakes
      have hsame := (hretry e rfl).1
      rw [hstatus, hm, Option.map_some, Option.some.injEq] at hsame
      rw [← hsame] at hlt
      exact absurd hlt (lt_irrefl _)

/-- The write of the status fails, and the call can be made again. -/
theorem read_retryable_iff_failed_write :
    ∃ r, r = (talker.markReadAndEmit talk.conversationId heard.id Outbox.new 8 8 (sectorNo 0) 8).run handleFaulty
        (talking, [none, some ⟨⟨""⟩, 0⟩]) ∧
      r.1 = .error (.storage (.rocks ⟨""⟩)) ∧
      ReadRetryable (fun _ => Arr.fill 32 0) talker talk.conversationId heard.id Outbox.new talking r.2.1 r.1 := by
  have hnew : talking.get .outbox (sectorNo 0).bytes.val = none := by decide +kernel
  have hcond : ReadsAllOrNothing talking [none, some ⟨⟨""⟩, 0⟩] talk.conversationId heard.id Outbox.new :=
    .inr (.inr (.inl (by decide)))
  have hiff := read_retryable_iff (talking_reachable fun _ => Arr.fill 32 0) [none, some ⟨⟨""⟩, 0⟩] talker
    talk.conversationId heard.id Outbox.new 8 8 hnew 8
  exact ⟨_, rfl, by decide +kernel, hiff.mpr hcond⟩

/-- One sector waits in an outbox for one: the call fails, the message is read,
and when the sector is gone there is still no receipt to be had. -/
theorem full_outbox_keeps_status :
    let read := talker.markReadAndEmit talk.conversationId heard.id ⟨1⟩ 8 8 (sectorNo 1) 8
    let r := (filled 1).run read
    Reachable (fun _ => Arr.fill 32 0) (filled 1) ∧
      ¬ ReadRetryable (fun _ => Arr.fill 32 0) talker talk.conversationId heard.id ⟨1⟩ (filled 1) r.2 r.1 ∧
      ((r.2.run (Outbox.remove (sectorNo 0))).2.run read).1 = .error (.invalidStatusTransition .read .read) := by
  intro read r
  have hroom : 1 ≤ defaultOutboxCapacity := by
    unfold defaultOutboxCapacity
    omega
  refine ⟨(filled_spec _ hroom).1, fun h => ?_, by decide +kernel⟩
  have herr : r.1 = .error (.storage .outboxFull) := by decide +kernel
  have hsame := (h _ herr).1
  revert hsame
  decide +kernel

end ZeroSdk.Dm
