/-
Where the statuses of the sender's messages come from. The invariant
(`Inv`) is stated against three growing records of the run: what `B` has
stored, what it has marked read, and what `A` has sent. One step keeps it
(`inv_step`), and every run from empty chains and outboxes has it
(`inv_run`).
-/
import Mathlib.Data.List.Induction
import ZeroSdk.Dm.Protocol

namespace ZeroSdk.Dm
open DmService Outbox

section Invariant
variable (Stored Read : ConversationId → MessageId → Prop) (Sent : DmSectorPayload → Prop)

/-- A status has its reason: what is delivered was stored, what is read was
marked read. -/
structure Justified (c : ConversationId) (id : MessageId) (status : MessageStatus) : Prop where
  delivered : .delivered ≤ status → Stored c id
  read : status = .read → Read c id

/-- A receipt says what is true. -/
def ReceiptOk (bytes : Bytes) : Prop :=
  ∀ r, decodeReceipt bytes = .ok r → Justified Stored Read r.conversationId r.messageId r.status

/-- A DM sector is one that was sent. -/
def DmOk (bytes : Bytes) : Prop := ∀ p, decodeDm bytes = .ok p → Sent p

/-- The message is the payload's, but for its status. -/
def Message.IsOf (m : Message) (p : DmSectorPayload) : Prop :=
  m = { p.toMessage m.statusUpdatedAtMs with status := m.status }

structure Inv (w : World) : Prop where
  keyedA : WellKeyed w.a
  keyedB : WellKeyed w.b
  messagesA : ∀ c id m, messageAt w.a c id = some m → Justified Stored Read c id m.status
  queueA : Queued (DmOk Sent) w.a
  dms : ∀ bytes ∈ w.dms, DmOk Sent bytes
  messagesB : ∀ c id m, messageAt w.b c id = some m → Stored c id ∧ ∃ p, Sent p ∧ m.IsOf p
  queueB : Queued (ReceiptOk Stored Read) w.b
  receipts : ∀ bytes ∈ w.receipts, ReceiptOk Stored Read bytes

end Invariant

section
variable {Stored Read : ConversationId → MessageId → Prop} {Sent : DmSectorPayload → Prop} {w : World}

theorem Inv.mono {Stored' Read' : ConversationId → MessageId → Prop} {Sent' : DmSectorPayload → Prop}
    (h : Inv Stored Read Sent w) (hst : ∀ c id, Stored c id → Stored' c id) (hre : ∀ c id, Read c id → Read' c id)
    (hse : ∀ p, Sent p → Sent' p) : Inv Stored' Read' Sent' w := by
  have hj : ∀ {c id status}, Justified Stored Read c id status → Justified Stored' Read' c id status :=
    fun hj => ⟨fun hd => hst _ _ (hj.delivered hd), fun hr => hre _ _ (hj.read hr)⟩
  have hreceipt : ∀ b, ReceiptOk Stored Read b → ReceiptOk Stored' Read' b := fun b hb r hr => hj (hb r hr)
  have hdm : ∀ b, DmOk Sent b → DmOk Sent' b := fun b hb p hp => hse p (hb p hp)
  refine ⟨h.keyedA, h.keyedB, fun c id m hm => hj (h.messagesA c id m hm), h.queueA.mono hdm,
    fun b hb => hdm b (h.dms b hb), fun c id m hm => ?_, h.queueB.mono hreceipt,
    fun b hb => hreceipt b (h.receipts b hb)⟩
  obtain ⟨hs, p, hp, hof⟩ := h.messagesB c id m hm
  exact ⟨hst c id hs, p, hse p hp, hof⟩

/-- Below `Delivered` there is nothing to justify. -/
theorem Justified.of_lt {c : ConversationId} {id : MessageId} {status : MessageStatus} (h : status < .delivered) :
    Justified Stored Read c id status := by
  refine ⟨fun hd => absurd h (not_lt.mpr hd), fun hr => ?_⟩
  subst hr
  exact absurd h (by decide)

/-! ## Steps of `A` -/

theorem Inv.stepA (h : Inv Stored Read Sent w) {a : ZeroDb} {o : Option Message} (hu : Update w.a a o)
    (ho : ∀ m, o = some m → Justified Stored Read m.conversationId m.id m.status) (hq : Queued (DmOk Sent) a) :
    Inv Stored Read Sent { w with a } := by
  refine ⟨hu.wellKeyed h.keyedA, h.keyedB, fun c id m hm => ?_, hq, h.dms, h.messagesB, h.queueB, h.receipts⟩
  rcases hu.stored hm with hold | ⟨rfl, rfl, rfl⟩
  · exact h.messagesA c id m hold
  · exact ho m rfl

theorem Inv.updateStatusA (h : Inv Stored Read Sent w) {c : ConversationId} {id : MessageId} {new : MessageStatus}
    (hj : Justified Stored Read c id new) (now : UInt64) :
    Inv Stored Read Sent { w with a := (w.a.run (updateStatus c id new now)).2 } := by
  have hq := queued_updateStatus h.queueA c id new now
  rcases update_updateStatus w.a c id new now with ⟨e, hrun, -⟩ | ⟨m, hm, -, hrun⟩
  · rw [hrun]
    exact h
  · rw [hrun] at hq ⊢
    refine h.stepA (update_storeMessage w.a _) (fun m' hm' => ?_) hq
    cases hm'
    obtain ⟨rfl, rfl⟩ := h.keyedA.own hm
    exact hj

/-! ## Steps of `B` -/

theorem Inv.stepB (h : Inv Stored Read Sent w) {b : ZeroDb} {o : Option Message} (hu : Update w.b b o)
    (ho : ∀ m, o = some m → Stored m.conversationId m.id ∧ ∃ p, Sent p ∧ m.IsOf p)
    (hq : Queued (ReceiptOk Stored Read) b) : Inv Stored Read Sent { w with b } := by
  refine ⟨h.keyedA, hu.wellKeyed h.keyedB, h.messagesA, h.queueA, h.dms, fun c id m hm => ?_, hq, h.receipts⟩
  rcases hu.stored hm with hold | ⟨rfl, rfl, rfl⟩
  · exact h.messagesB c id m hold
  · exact ho m rfl

/-- What `mark_read` of `B` does: nothing, or it stores the message as read
and returns the receipt. -/
theorem markRead_cases (db : ZeroDb) (s : DmService) (c : ConversationId) (id : MessageId)
    (updatedMs now : UInt64) :
    (∃ e, db.run (s.markRead c id updatedMs now) = (.error e, db)) ∨
    ∃ m, messageAt db c id = some m ∧ db.run (s.markRead c id updatedMs now) =
      (.ok ⟨id, c, s.identity, s.machineId, .read, now⟩,
        (db.run (storeMessage { m with status := .read, statusUpdatedAtMs := updatedMs })).2) := by
  unfold DmService.markRead
  simp only [Prog.run_bind]
  rcases update_updateStatus db c id .read updatedMs with ⟨e, hrun, -⟩ | ⟨m, hm, -, hrun⟩
  · unfold ZeroDb.run at hrun
    exact .inl ⟨e, by simp only [hrun]⟩
  · unfold ZeroDb.run at hrun
    refine .inr ⟨m, hm, ?_⟩
    simp only [hrun]
    rfl

/-! ## Outboxes -/

theorem OutboxAction.update (act : OutboxAction) (db : ZeroDb) : Update db (act.run db).1 none := by
  cases act with
  | publish nowMs =>
    simp only [OutboxAction.run]
    split <;> exact .refl db
  | markAttempted id nextAttemptMs => exact .of_cf_eq (markAttempted_cf db id nextAttemptMs (by decide))
  | remove id => exact .of_cf_eq (remove_cf db id (by decide))

/-- What is published was queued, and what is queued stays as it was. -/
theorem OutboxAction.queued {P : Bytes → Prop} {db : ZeroDb} (act : OutboxAction) (h : Queued P db) :
    Queued P (act.run db).1 ∧ ∀ bytes ∈ (act.run db).2, P bytes := by
  cases act with
  | publish nowMs =>
    simp only [OutboxAction.run]
    split
    · next due hdue =>
      refine ⟨h, fun bytes hb => ?_⟩
      obtain ⟨e, he, rfl⟩ := List.mem_map.mp hb
      exact h.due hdue he
    · exact ⟨h, fun bytes hb => by cases hb⟩
  | markAttempted id nextAttemptMs => exact ⟨queued_markAttempted h id nextAttemptMs, fun bytes hb => by cases hb⟩
  | remove id => exact ⟨queued_remove h id, fun bytes hb => by cases hb⟩

end

section Steps
variable (blake3 : Bytes → Arr 32) (sender : DmService) (recipient : DmReceiver)

/-- The payload a step of `A` sends. -/
def Action.Sends : Action → DmSectorPayload → Prop
  | .sendText c text nowMs id _, p => p = ⟨id, c, sender.identity, sender.machineId, text, nowMs⟩
  | _, _ => False

variable {blake3 sender recipient} {Stored Read : ConversationId → MessageId → Prop} {Sent : DmSectorPayload → Prop}
  {w : World}

theorem Inv.deliverDm (h : Inv Stored Read Sent w) {bytes : Bytes} (hb : bytes ∈ w.dms) (now receiptMs : UInt64)
    (sectorId : SectorId) (enqueuedMs : UInt64)
    (hs : ∀ c id m, messageAt (w.b.run
      (recipient.processInboundDm blake3 bytes now receiptMs sectorId enqueuedMs)).2 c id = some m → Stored c id) :
    Inv Stored Read Sent
      { w with b := (w.b.run (recipient.processInboundDm blake3 bytes now receiptMs sectorId enqueuedMs)).2 } := by
  cases hd : decodeDm bytes with
  | error e =>
    rw [run_inbound_error blake3 w.b recipient hd]
    exact h
  | ok p =>
    have hu := update_inbound blake3 w.b recipient hd now receiptMs sectorId enqueuedMs
    have hstored : Stored p.conversationId p.messageId := hs _ _ (p.toMessage now) hu.written
    refine h.stepB hu (fun m hm => ?_) ?_
    · cases hm
      exact ⟨hstored, p, h.dms bytes hb p hd, rfl⟩
    · -- the receipt it queues is for the message it stored
      refine queued_inbound h.queueB blake3 recipient hd now receiptMs sectorId enqueuedMs fun r hr => ?_
      rw [decodeReceipt_toAllocvec] at hr
      cases hr
      exact ⟨fun _ => hstored, fun hread => by cases hread⟩

/-- `B` marks a message read, if it can: the message keeps its content. -/
theorem Inv.markRead (h : Inv Stored Read Sent w) (s : DmService) (c : ConversationId) (id : MessageId)
    (updatedMs now : UInt64) : Inv Stored Read Sent { w with b := (w.b.run (s.markRead c id updatedMs now)).2 } := by
  rcases markRead_cases w.b s c id updatedMs now with ⟨e, hrun⟩ | ⟨m, hm, hrun⟩
  · rw [hrun]
    exact h
  · rw [hrun]
    have hu := update_storeMessage w.b { m with status := .read, statusUpdatedAtMs := updatedMs }
    obtain ⟨rfl, rfl⟩ := h.keyedB.own hm
    obtain ⟨hstored, p, hp, hof⟩ := h.messagesB _ _ m hm
    refine h.stepB hu (fun m' hm' => ?_) (queued_storeMessage h.queueB _)
    cases hm'
    refine ⟨hstored, p, hp, ?_⟩
    unfold Message.IsOf at hof ⊢
    rw [hof]
    rfl

/-- The receipt `mark_read` returns is justified once the reading is on
record. -/
theorem Inv.markRead_receipt (h : Inv Stored Read Sent w) {s : DmService} {c : ConversationId} {id : MessageId}
    {updatedMs now : UInt64} {r : ReceiptPayload} (hr : (w.b.run (s.markRead c id updatedMs now)).1 = .ok r)
    (hread : Read c id) : ReceiptOk Stored Read r.toAllocvec.val := by
  rcases markRead_cases w.b s c id updatedMs now with ⟨e, hrun⟩ | ⟨m, hm, hrun⟩
  · rw [hrun] at hr
    cases hr
  · rw [hrun] at hr
    cases hr
    intro r hdec
    rw [decodeReceipt_toAllocvec] at hdec
    cases hdec
    exact ⟨fun _ => (h.messagesB c id m hm).1, fun _ => hread⟩

/-- `mark_read_and_emit` queues its receipt only when it succeeds. -/
theorem Inv.markReadAndEmit (h : Inv Stored Read Sent w) (s : DmService) (c : ConversationId) (id : MessageId)
    (outbox : Outbox) (updatedMs now : UInt64) (sectorId : SectorId) (enqueuedMs : UInt64)
    (hread : ∀ r, (w.b.run (s.markReadAndEmit c id outbox updatedMs now sectorId enqueuedMs)).1 = .ok r → Read c id) :
    Inv Stored Read Sent
      { w with b := (w.b.run (s.markReadAndEmit c id outbox updatedMs now sectorId enqueuedMs)).2 } := by
  have hmark := h.markRead s c id updatedMs now
  have hreceipt := fun r (hr : (w.b.run (s.markRead c id updatedMs now)).1 = .ok r) => h.markRead_receipt hr
  unfold DmService.markReadAndEmit at hread ⊢
  rcases hrun : w.b.run (s.markRead c id updatedMs now) with ⟨_ | r, b⟩
  · rw [hrun] at hmark
    simp only [Prog.run_bind, hrun] at hread ⊢
    exact hmark
  · rw [hrun] at hmark hreceipt
    rw [ZeroDb.run_bind_ok hrun] at hread ⊢
    unfold enqueueReceipt at hread ⊢
    rcases enqueue_cases b outbox (outboxEntry sectorId r.toAllocvec enqueuedMs) with
      ⟨-, henq⟩ | ⟨-, henq⟩ | ⟨-, henq⟩
    · simp only [Prog.run_bind, Prog.run_mapErr, henq, Except.mapError, Prog.run_pure]
      exact hmark
    · simp only [Prog.run_bind, Prog.run_mapErr, henq, Except.mapError]
      exact hmark
    · simp only [Prog.run_bind, Prog.run_mapErr, henq, Except.mapError, Prog.run_pure] at hread ⊢
      have hq := hmark.queueB.put sectorId.bytes.val (e := outboxEntry sectorId r.toAllocvec enqueuedMs)
        (hreceipt r rfl (hread r rfl))
      exact hmark.stepB (.of_cf_eq (b.cf_put_other _ _ (by decide))) (fun m hm => by cases hm) hq

/-- One step keeps the invariant, once the records have what it adds: what
`B` stores then, the reading it does, what `A` sends. -/
theorem inv_step (h : Inv Stored Read Sent w) (act : Action)
    (hs : ∀ c id m, messageAt (w.step blake3 sender recipient act).b c id = some m → Stored c id)
    (hr : ∀ c id, w.MarksRead recipient c id act → Read c id) (hse : ∀ p, act.Sends sender p → Sent p) :
    Inv Stored Read Sent (w.step blake3 sender recipient act) := by
  cases act with
  | openA peer =>
    exact h.stepA (update_openConversation blake3 w.a sender peer) (fun m hm => by cases hm)
      (queued_openConversation h.queueA blake3 sender peer)
  | sendText c text nowMs id sectorId =>
    have hq := queued_sendText h.queueA sender c text nowMs id sectorId (fun p hp => by
      rw [decodeDm_toAllocvec] at hp
      cases hp
      exact hse _ rfl)
    rcases update_sendText w.a sender c text nowMs id sectorId with hsame | hu
    · simp only [World.step, hsame]
      exact h
    · refine h.stepA hu (fun m hm => ?_) hq
      cases hm
      have hlt : MessageStatus.queued < .delivered := by decide
      exact .of_lt hlt
  | acknowledgeSent c id nowMs => exact h.updateStatusA (.of_lt (by decide)) nowMs
  | outboxA act =>
    obtain ⟨hq, hpub⟩ := act.queued h.queueA
    have h' := h.stepA (act.update w.a) (fun m hm => by cases hm) hq
    exact { h' with dms := fun b hb => (List.mem_append.mp hb).elim (h.dms b) (hpub b) }
  | deliverReceipt bytes nowMs =>
    simp only [World.step]
    split
    · next hb =>
      unfold handleReceipt
      cases hd : decodeReceipt bytes with
      | error e => exact h
      | ok r => exact h.updateStatusA (h.receipts bytes hb r hd) nowMs
    · exact h
  | openB peer =>
    exact h.stepB (update_openConversation blake3 w.b recipient.service peer) (fun m hm => by cases hm)
      (queued_openConversation h.queueB blake3 recipient.service peer)
  | deliverDm bytes nowMs receiptMs sectorId enqueuedMs =>
    simp only [World.step] at hs ⊢
    split at hs
    · next hb =>
      rw [if_pos hb]
      exact h.deliverDm hb nowMs receiptMs sectorId enqueuedMs hs
    · next hb =>
      rw [if_neg hb]
      exact h
  | markRead c id updatedMs nowMs =>
    have h' := h.markRead recipient.service c id updatedMs nowMs
    simp only [World.step]
    split
    · next receipt hreceipt =>
      have hok := h.markRead_receipt hreceipt (hr c id ⟨rfl, rfl, receipt, hreceipt⟩)
      refine { h' with receipts := fun b hb => (List.mem_append.mp hb).elim (h.receipts b) fun hb => ?_ }
      rw [List.mem_singleton.mp hb]
      exact hok
    · exact h'
  | markReadAndEmit c id outbox updatedMs nowMs sectorId enqueuedMs =>
    exact h.markReadAndEmit recipient.service c id outbox updatedMs nowMs sectorId enqueuedMs
      fun r hok => hr c id ⟨rfl, rfl, r, hok⟩
  | outboxB act =>
    obtain ⟨hq, hpub⟩ := act.queued h.queueB
    have h' := h.stepB (act.update w.b) (fun m hm => by cases hm) hq
    exact { h' with receipts := fun b hb => (List.mem_append.mp hb).elim (h.receipts b) (hpub b) }

end Steps

/-! ## Runs -/

section Runs
variable (blake3 : Bytes → Arr 32) (sender : DmService) (recipient : DmReceiver)

/-- No message, conversation or outbox entry yet, and nothing in flight. -/
structure World.Fresh (w : World) : Prop where
  chainsA : ∀ k, w.a.get .chains k = none
  outboxA : ∀ k, w.a.get .outbox k = none
  chainsB : ∀ k, w.b.get .chains k = none
  outboxB : ∀ k, w.b.get .outbox k = none
  dms : w.dms = []
  receipts : w.receipts = []

/-- At some point of the run `B` has the message stored. -/
def StoredIn (w : World) (acts : List Action) (c : ConversationId) (id : MessageId) : Prop :=
  ∃ pre, pre <+: acts ∧ ∃ m, messageAt (w.run blake3 sender recipient pre).b c id = some m

/-- At some point of the run `B` marks the message read. -/
def ReadIn (w : World) (acts : List Action) (c : ConversationId) (id : MessageId) : Prop :=
  ∃ pre act post, acts = pre ++ act :: post ∧ (w.run blake3 sender recipient pre).MarksRead recipient c id act

/-- `A` sends the payload in the run. -/
def SentIn (acts : List Action) (p : DmSectorPayload) : Prop := ∃ act ∈ acts, act.Sends sender p

variable {blake3 sender recipient}

theorem World.Fresh.inv {w : World} (h : w.Fresh) (Stored Read : ConversationId → MessageId → Prop)
    (Sent : DmSectorPayload → Prop) : Inv Stored Read Sent w := by
  have keyed : ∀ {db : ZeroDb}, (∀ k, db.get .chains k = none) → WellKeyed db := by
    intro db hdb k v hv
    rw [hdb k] at hv
    cases hv
  have empty : ∀ {db : ZeroDb}, (∀ k, db.get .chains k = none) → ∀ c id m, messageAt db c id ≠ some m := by
    intro db hdb c id m hm
    rw [messageAt, hdb] at hm
    cases hm
  have queue : ∀ {db : ZeroDb} {P : Bytes → Prop}, (∀ k, db.get .outbox k = none) → Queued P db := by
    intro db P hdb k v hv
    rw [hdb k] at hv
    cases hv
  refine ⟨keyed h.chainsA, keyed h.chainsB, fun c id m hm => absurd hm (empty h.chainsA c id m), queue h.outboxA,
    fun b hb => ?_, fun c id m hm => absurd hm (empty h.chainsB c id m), queue h.outboxB, fun b hb => ?_⟩
  · rw [h.dms] at hb
    cases hb
  · rw [h.receipts] at hb
    cases hb

theorem inv_run {w : World} (hw : w.Fresh) (acts : List Action) :
    Inv (StoredIn blake3 sender recipient w acts) (ReadIn blake3 sender recipient w acts) (SentIn sender acts)
      (w.run blake3 sender recipient acts) := by
  induction acts using List.reverseRecOn with
  | nil => exact hw.inv _ _ _
  | append_singleton acts act ih =>
    have hrun : w.run blake3 sender recipient (acts ++ [act]) =
        (w.run blake3 sender recipient acts).step blake3 sender recipient act := by
      rw [World.run, List.foldl_append]
      rfl
    -- the records of the longer run have those of the shorter, and what the last step adds
    have h : Inv (StoredIn blake3 sender recipient w (acts ++ [act])) (ReadIn blake3 sender recipient w (acts ++ [act]))
        (SentIn sender (acts ++ [act])) (w.run blake3 sender recipient acts) := ih.mono
      (fun c id ⟨pre, hpre, hm⟩ => ⟨pre, hpre.trans (List.prefix_append _ _), hm⟩)
      (fun c id ⟨pre, a, post, heq, hm⟩ => ⟨pre, a, post ++ [act], by rw [heq]; simp, hm⟩)
      (fun p ⟨a, ha, hp⟩ => ⟨a, List.mem_append_left _ ha, hp⟩)
    rw [hrun]
    refine inv_step h act (fun c id m hm => ?_) (fun c id hm => ⟨acts, act, [], rfl, hm⟩)
      fun p hp => ⟨act, List.mem_append_right _ (List.mem_singleton.mpr rfl), hp⟩
    rw [← hrun] at hm
    exact ⟨acts ++ [act], List.prefix_rfl, m, hm⟩

/-- **Status provenance.** At any point of any run, whatever the network
drops, repeats, delays and reorders: a message of `A` is `Delivered` or
`Read` only if `B` had stored a message under its conversation and id, one
that `A` sent; and it is `Read` only if `B` had successfully marked it
read. -/
theorem status_provenance {w : World} (hw : w.Fresh) (acts : List Action) {c : ConversationId} {id : MessageId}
    {m : Message} (hm : messageAt (w.run blake3 sender recipient acts).a c id = some m) :
    (.delivered ≤ m.status → ∃ pre, pre <+: acts ∧ ∃ m' p,
      messageAt (w.run blake3 sender recipient pre).b c id = some m' ∧ m'.IsOf p ∧ SentIn sender pre p) ∧
    (m.status = .read → ∃ pre act post, acts = pre ++ act :: post ∧
      (w.run blake3 sender recipient pre).MarksRead recipient c id act) := by
  have hj := (inv_run hw acts).messagesA c id m hm
  refine ⟨fun hd => ?_, hj.read⟩
  obtain ⟨pre, hpre, m', hm'⟩ := hj.delivered hd
  obtain ⟨-, p, hp, hof⟩ := (inv_run hw pre).messagesB c id m' hm'
  exact ⟨pre, hpre, m', p, hm', hof, hp⟩

end Runs

/-! ## A run -/

/-- `id(1)` with `id(2)` in its address book. -/
def alice : DmService := ⟨⟨Arr.fill 16 1⟩, ⟨Arr.fill 16 1⟩, ⟨⟨Arr.fill 16 1⟩⟩⟩

/-- `id(2)`, who knows nobody. -/
def bob : DmReceiver := ⟨⟨⟨Arr.fill 16 2⟩, ⟨Arr.fill 16 2⟩, ⟨⟨Arr.fill 16 2⟩⟩⟩, ⟨Arr.fill 16 2⟩, ⟨Arr.fill 16 2⟩⟩

def aliceDb : ZeroDb :=
  ZeroDb.empty.put .contacts (ContactStore.makeKey ⟨Arr.fill 16 1⟩ ⟨Arr.fill 16 2⟩)
    (Contact.codec.enc ⟨⟨Arr.fill 16 2⟩, Str.empty, Vec.empty, none, 0⟩)

/-- `alice` sends a message; it is delivered twice, the receipt comes back,
`bob` reads the message, and that receipt comes back too. -/
def exchange : List Action :=
  let c : ConversationId := ⟨Arr.fill 32 9⟩
  let id : MessageId := ⟨Arr.fill 16 7⟩
  let dm := (DmSectorPayload.mk id c ⟨Arr.fill 16 1⟩ ⟨Arr.fill 16 1⟩ Str.empty 10).toAllocvec.val
  let receipt status ms := (ReceiptPayload.mk id c ⟨Arr.fill 16 2⟩ ⟨Arr.fill 16 2⟩ status ms).toAllocvec.val
  [.openA ⟨Arr.fill 16 2⟩, .sendText c Str.empty 10 id ⟨Arr.fill 16 5⟩, .outboxA (.publish 10),
    .deliverDm dm 20 21 ⟨Arr.fill 16 6⟩ 22, .deliverDm dm 23 24 ⟨Arr.fill 16 8⟩ 25, .outboxB (.publish 30),
    .deliverReceipt (receipt .delivered 21) 40, .markRead c id 50 51, .deliverReceipt (receipt .read 51) 60]

theorem status_provenance_exchange :
    let blake3 : Bytes → Arr 32 := fun _ => Arr.fill 32 9
    let w : World := ⟨aliceDb, ZeroDb.empty, [], []⟩
    ∃ m, messageAt (w.run blake3 alice bob exchange).a ⟨Arr.fill 32 9⟩ ⟨Arr.fill 16 7⟩ = some m ∧ m.status = .read ∧
      (∃ pre, pre <+: exchange ∧ ∃ m' p,
        messageAt (w.run blake3 alice bob pre).b ⟨Arr.fill 32 9⟩ ⟨Arr.fill 16 7⟩ = some m' ∧ m'.IsOf p ∧
          SentIn alice pre p) ∧
      ∃ pre act post, exchange = pre ++ act :: post ∧
        (w.run blake3 alice bob pre).MarksRead bob ⟨Arr.fill 32 9⟩ ⟨Arr.fill 16 7⟩ act := by
  intro blake3 w
  have hw : w.Fresh := ⟨fun _ => rfl, fun _ => rfl, fun _ => rfl, fun _ => rfl, rfl, rfl⟩
  have hm : messageAt (w.run blake3 alice bob exchange).a ⟨Arr.fill 32 9⟩ ⟨Arr.fill 16 7⟩ =
      some ⟨⟨Arr.fill 16 7⟩, ⟨Arr.fill 32 9⟩, ⟨Arr.fill 16 1⟩, ⟨Arr.fill 16 1⟩, Str.empty, .read, 10, 60⟩ := by
    decide +kernel
  obtain ⟨hdelivered, hread⟩ := status_provenance hw exchange hm
  exact ⟨_, hm, rfl, hdelivered (by decide), hread rfl⟩

end ZeroSdk.Dm
