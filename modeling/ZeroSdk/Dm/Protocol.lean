/-
The two-party protocol: a sender `A` and a recipient `B`, each with a
database of its own, and a network between them. What a party publishes from
its outbox (and the receipt `mark_read` returns) stays in flight for good:
delivering it any number of times, in any order, late or never is every
behaviour of a network that loses, repeats, delays and reorders, but does
not forge.

`status_provenance`: at any point of any run, a message of `A` is
`Delivered` only if `B` has stored it before, and `Read` only if `B` has
marked it read before. The invariant is about the receipts: every one that
is queued or in flight has its reason in the run so far.
-/
import ZeroSdk.Dm.Chains

namespace ZeroSdk.Dm
open DmService Outbox

/-! ## What the operations queue -/

section Queued
variable {P : Bytes → Prop} {db : ZeroDb}

theorem queued_put_chains (h : Queued P db) (k v : Bytes) : Queued P (db.put .chains k v) :=
  h.of_cf_eq (db.cf_put_other k v (by decide))

theorem queued_storeMessage (h : Queued P db) (m : Message) : Queued P (db.run (storeMessage m)).2 :=
  queued_put_chains h _ _

theorem queued_openConversation (h : Queued P db) (blake3 : Bytes → Arr 32) (s : DmService) (peer : IdentityId) :
    Queued P (db.run (s.openConversation blake3 peer)).2 := by
  rcases openConversation_cases blake3 db s peer with ⟨-, e, -, hrun⟩ | ⟨-, b, -, hrun⟩ | ⟨-, -, hrun⟩
  · rw [hrun]
    exact h
  · rw [hrun]
    exact h
  · rw [hrun]
    exact queued_put_chains h _ _

theorem queued_updateStatus (h : Queued P db) (c : ConversationId) (id : MessageId)
    (new : MessageStatus) (now : UInt64) : Queued P (db.run (updateStatus c id new now)).2 := by
  rcases update_updateStatus db c id new now with ⟨e, hrun, -⟩ | ⟨m, -, -, hrun⟩
  · rw [hrun]
    exact h
  · rw [hrun]
    exact queued_storeMessage h _

theorem queued_sendText (h : Queued P db) (s : DmService) (c : ConversationId) (text : Str) (now : UInt64)
    (id : MessageId) (sectorId : SectorId)
    (hp : P (DmSectorPayload.mk id c s.identity s.machineId text now).toAllocvec.val) :
    Queued P (db.run (s.sendText c text now id sectorId)).2 := by
  unfold sendText
  have hres := resumeConversation_snd db c
  refine ZeroDb.after_bind (Queued P) (fun conv _ => ?_) fun _ _ => by rw [hres]; exact h
  rw [hres]
  have hstore := queued_storeMessage h ⟨id, c, s.identity, s.machineId, text, .queued, now, now⟩
  refine ZeroDb.after_bind (Queued P) (fun _ _ => ?_) fun _ _ => hstore
  have henq : Queued P (ZeroDb.run _ (Outbox.new.enqueue (outboxEntry sectorId
      (DmSectorPayload.mk id c s.identity s.machineId text now).toAllocvec now))).2 := queued_enqueue hstore _ hp
  refine ZeroDb.after_bind (Queued P) (fun _ _ => ?_) fun _ _ => ?_
  · rw [ZeroDb.run_mapErr]
    have hsave : Queued P (ZeroDb.run _ (saveConversation { conv with lastSector := some sectorId })).2 :=
      queued_put_chains henq _ _
    exact ZeroDb.after_bind (Queued P) (fun _ _ => hsave) fun _ _ => hsave
  · rw [ZeroDb.run_mapErr]
    exact henq

theorem queued_inbound (h : Queued P db) (blake3 : Bytes → Arr 32) (r : DmReceiver) {bytes : Bytes}
    {p : DmSectorPayload} (hd : decodeDm bytes = .ok p) (now receiptMs : UInt64) (sectorId : SectorId)
    (enqueuedMs : UInt64)
    (hp : P (buildDeliveredReceipt p.messageId p.conversationId r.identity r.machineId receiptMs).toAllocvec.val) :
    Queued P (db.run (r.processInboundDm blake3 bytes now receiptMs sectorId enqueuedMs)).2 := by
  rw [run_inbound_snd blake3 db r hd]
  have hopen := queued_openConversation h blake3 r.service p.senderIdentity
  exact queued_enqueue (queued_storeMessage hopen (p.toMessage now)) Outbox.new hp

end Queued

@[simp] theorem decodeReceipt_toAllocvec (r : ReceiptPayload) : decodeReceipt r.toAllocvec.val = .ok r := by
  simp [decodeReceipt, ReceiptPayload.toAllocvec, Except.mapError]

@[simp] theorem decodeDm_toAllocvec (p : DmSectorPayload) : decodeDm p.toAllocvec.val = .ok p := decodeDm_enc p

/-! ## The parties and the network -/

/-- What is done with a party's outbox: publish what is due, reschedule an
entry, drop one. -/
inductive OutboxAction
  | publish (nowMs : UInt64)
  | markAttempted (id : SectorId) (nextAttemptMs : UInt64)
  | remove (id : SectorId)

/-- The database after the action, and the payloads published. -/
def OutboxAction.run (db : ZeroDb) : OutboxAction → ZeroDb × List Bytes
  | .publish nowMs =>
    match (db.run (dequeueDue nowMs)).1 with
    | .ok due => (db, due.map (·.payload.val))
    | .error _ => (db, [])
  | .markAttempted id nextAttemptMs => ((db.run (Outbox.markAttempted id nextAttemptMs)).2, [])
  | .remove id => ((db.run (Outbox.remove id)).2, [])

/-- A receipt as it comes in at the sender. -/
def handleReceipt (bytes : Bytes) (nowMs : UInt64) : DbProg DmError Unit := do
  let receipt ← Prog.lift (decodeReceipt bytes)
  processReceipt receipt nowMs

/-- A step of the sender `A`, of the recipient `B`, or of the network. -/
inductive Action
  | openA (peer : IdentityId)
  | sendText (c : ConversationId) (text : Str) (nowMs : UInt64) (id : MessageId) (sectorId : SectorId)
  | acknowledgeSent (c : ConversationId) (id : MessageId) (nowMs : UInt64)
  | outboxA (act : OutboxAction)
  | deliverReceipt (bytes : Bytes) (nowMs : UInt64)
  | openB (peer : IdentityId)
  | deliverDm (bytes : Bytes) (nowMs receiptMs : UInt64) (sectorId : SectorId) (enqueuedMs : UInt64)
  | markRead (c : ConversationId) (id : MessageId) (updatedMs nowMs : UInt64)
  | markReadAndEmit (c : ConversationId) (id : MessageId) (outbox : Outbox) (updatedMs nowMs : UInt64)
    (sectorId : SectorId) (enqueuedMs : UInt64)
  | outboxB (act : OutboxAction)

/-- The two databases, and what was ever published: DM sectors by `A`,
receipts by `B`. -/
structure World where
  a : ZeroDb
  b : ZeroDb
  dms : List Bytes
  receipts : List Bytes

section Protocol
variable (blake3 : Bytes → Arr 32) (sender : DmService) (recipient : DmReceiver)

/-- Bytes that were not published are not delivered. -/
def World.step (w : World) : Action → World
  | .openA peer => { w with a := (w.a.run (sender.openConversation blake3 peer)).2 }
  | .sendText c text nowMs id sectorId => { w with a := (w.a.run (sender.sendText c text nowMs id sectorId)).2 }
  | .acknowledgeSent c id nowMs => { w with a := (w.a.run (acknowledgeSent c id nowMs)).2 }
  | .outboxA act => { w with a := (act.run w.a).1, dms := w.dms ++ (act.run w.a).2 }
  | .deliverReceipt bytes nowMs =>
    if bytes ∈ w.receipts then { w with a := (w.a.run (handleReceipt bytes nowMs)).2 } else w
  | .openB peer => { w with b := (w.b.run (recipient.service.openConversation blake3 peer)).2 }
  | .deliverDm bytes nowMs receiptMs sectorId enqueuedMs =>
    if bytes ∈ w.dms then
      { w with b := (w.b.run (recipient.processInboundDm blake3 bytes nowMs receiptMs sectorId enqueuedMs)).2 }
    else w
  | .markRead c id updatedMs nowMs =>
    let b := (w.b.run (recipient.service.markRead c id updatedMs nowMs)).2
    -- the caller sends the receipt it is given
    match (w.b.run (recipient.service.markRead c id updatedMs nowMs)).1 with
    | .ok receipt => { w with b, receipts := w.receipts ++ [receipt.toAllocvec.val] }
    | .error _ => { w with b }
  | .markReadAndEmit c id outbox updatedMs nowMs sectorId enqueuedMs =>
    { w with b := (w.b.run (recipient.service.markReadAndEmit c id outbox updatedMs nowMs sectorId enqueuedMs)).2 }
  | .outboxB act => { w with b := (act.run w.b).1, receipts := w.receipts ++ (act.run w.b).2 }

def World.run (w : World) (acts : List Action) : World := acts.foldl (World.step blake3 sender recipient) w

/-- The step is a `mark_read` or `mark_read_and_emit` of `B` for the message,
and succeeds. -/
def World.MarksRead (w : World) (c : ConversationId) (id : MessageId) : Action → Prop
  | .markRead c' id' updatedMs nowMs => c' = c ∧ id' = id ∧
    ∃ receipt, (w.b.run (recipient.service.markRead c id updatedMs nowMs)).1 = .ok receipt
  | .markReadAndEmit c' id' outbox updatedMs nowMs sectorId enqueuedMs => c' = c ∧ id' = id ∧
    ∃ receipt, (w.b.run
      (recipient.service.markReadAndEmit c id outbox updatedMs nowMs sectorId enqueuedMs)).1 = .ok receipt
  | _ => False

end Protocol

end ZeroSdk.Dm
