/-
Is the message log append-only, with statuses that only go forward? Through
`update_status` it is: that path compares statuses before it writes. But
`process_inbound_dm` stores whatever arrives, so a sector delivered again
after its message was read takes the status back to `Delivered`
(`redelivery_lowers_status`), and a sector that reuses an id replaces the
message under it. `dm_log_monotone` is what holds: over every run whose
inbound sectors do not meet a message they would lower or replace.
-/
import ZeroSdk.Dm.Chains

namespace ZeroSdk.Dm
open DmService

/-- A call on the service or the receiver, with the ids and clock readings it
draws. -/
inductive Call
  | sendText (c : ConversationId) (text : Str) (nowMs : UInt64) (id : MessageId) (sectorId : SectorId)
  | processInboundDm (bytes : Bytes) (nowMs receiptMs : UInt64) (sectorId : SectorId) (enqueuedMs : UInt64)
  | processReceipt (receipt : ReceiptPayload) (nowMs : UInt64)
  | acknowledgeSent (c : ConversationId) (id : MessageId) (nowMs : UInt64)
  | markRead (c : ConversationId) (id : MessageId) (updatedMs nowMs : UInt64)
  | markReadAndEmit (c : ConversationId) (id : MessageId) (outbox : Outbox) (updatedMs nowMs : UInt64)
    (sectorId : SectorId) (enqueuedMs : UInt64)

/-- The database after the call. -/
def Call.run (blake3 : Bytes → Arr 32) (r : DmReceiver) (db : ZeroDb) : Call → ZeroDb
  | .sendText c text now id sectorId => (db.run (r.service.sendText c text now id sectorId)).2
  | .processInboundDm bytes now receiptMs sectorId enqueuedMs =>
    (db.run (r.processInboundDm blake3 bytes now receiptMs sectorId enqueuedMs)).2
  | .processReceipt receipt now => (db.run (DmService.processReceipt receipt now)).2
  | .acknowledgeSent c id now => (db.run (DmService.acknowledgeSent c id now)).2
  | .markRead c id updatedMs now => (db.run (r.service.markRead c id updatedMs now)).2
  | .markReadAndEmit c id outbox updatedMs now sectorId enqueuedMs =>
    (db.run (r.service.markReadAndEmit c id outbox updatedMs now sectorId enqueuedMs)).2

def runCalls (blake3 : Bytes → Arr 32) (r : DmReceiver) (db : ZeroDb) (calls : List Call) : ZeroDb :=
  calls.foldl (Call.run blake3 r) db

/-- The message is still there, the same but for a status that has not gone
back. -/
structure Message.Kept (m m' : Message) : Prop where
  text : m'.text = m.text
  senderIdentity : m'.senderIdentity = m.senderIdentity
  senderMachine : m'.senderMachine = m.senderMachine
  createdAtMs : m'.createdAtMs = m.createdAtMs
  status : m.status ≤ m'.status

/-- Every message stored in `db` is kept in `db'`. -/
def Kept (db db' : ZeroDb) : Prop :=
  ∀ c id m, messageAt db c id = some m → ∃ m', messageAt db' c id = some m' ∧ m.Kept m'

/-- What an inbound sector and a send must meet: the sector's message is new,
or the one stored agrees with it and is not read yet; the id drawn is new. -/
def Call.Safe (db : ZeroDb) : Call → Prop
  | .sendText c _ _ id _ => messageAt db c id = none
  | .processInboundDm bytes _ _ _ _ =>
    ∀ p, decodeDm bytes = .ok p → ∀ m, messageAt db p.conversationId p.messageId = some m →
      m.text = p.text ∧ m.senderIdentity = p.senderIdentity ∧ m.senderMachine = p.senderMachine ∧
        m.createdAtMs = p.createdAtMs ∧ m.status ≤ .delivered
  | _ => True

/-! ## One call -/

theorem Message.Kept.refl (m : Message) : m.Kept m := ⟨rfl, rfl, rfl, rfl, le_rfl⟩

theorem Message.Kept.trans {a b c : Message} (h : a.Kept b) (h' : b.Kept c) : a.Kept c :=
  ⟨h'.text.trans h.text, h'.senderIdentity.trans h.senderIdentity, h'.senderMachine.trans h.senderMachine,
    h'.createdAtMs.trans h.createdAtMs, le_trans h.status h'.status⟩

theorem Kept.refl (db : ZeroDb) : Kept db db := fun _ _ m hm => ⟨m, hm, .refl m⟩

theorem Kept.trans {db db₁ db₂ : ZeroDb} (h : Kept db db₁) (h' : Kept db₁ db₂) : Kept db db₂ := by
  intro c id m hm
  obtain ⟨m₁, hm₁, hk₁⟩ := h c id m hm
  obtain ⟨m₂, hm₂, hk₂⟩ := h' c id m₁ hm₁
  exact ⟨m₂, hm₂, hk₁.trans hk₂⟩

theorem Update.kept_iff {db db' : ZeroDb} {new : Message} (h : Update db db' (some new)) :
    Kept db db' ↔ ∀ m, messageAt db new.conversationId new.id = some m → m.Kept new := by
  constructor
  · intro hk m hm
    obtain ⟨m', hm', hkm⟩ := hk _ _ m hm
    rw [h.written] at hm'
    exact Option.some.inj hm' ▸ hkm
  · intro hnew c id m hm
    rw [h.messages]
    by_cases heq : new.conversationId = c ∧ new.id = id
    · obtain ⟨rfl, rfl⟩ := heq
      exact ⟨new, if_pos ⟨rfl, rfl⟩, hnew m hm⟩
    · exact ⟨m, by simp only [heq, if_false, hm], .refl m⟩

theorem Update.kept_none {db db' : ZeroDb} (h : Update db db' none) : Kept db db' := by
  intro c id m hm
  exact ⟨m, (h.messages c id).trans hm, .refl m⟩

/-- A step that goes on in a well-keyed database. -/
def Steps (db db' : ZeroDb) : Prop := WellKeyed db' ∧ Kept db db'

theorem steps_updateStatus {db : ZeroDb} (hw : WellKeyed db) (c : ConversationId) (id : MessageId)
    (new : MessageStatus) (now : UInt64) : Steps db (db.run (updateStatus c id new now)).2 := by
  rcases update_updateStatus db c id new now with ⟨e, hrun, -⟩ | ⟨m, hm, hlt, hrun⟩
  · rw [hrun]
    exact ⟨hw, .refl db⟩
  · rw [hrun]
    have hupd := update_storeMessage db { m with status := new, statusUpdatedAtMs := now }
    refine ⟨hupd.wellKeyed hw, hupd.kept_iff.mpr fun m' hm' => ?_⟩
    obtain ⟨rfl, rfl⟩ := hw.own hm
    cases hm.symm.trans hm'
    exact ⟨rfl, rfl, rfl, rfl, le_of_lt hlt⟩

theorem steps_markRead {db : ZeroDb} (hw : WellKeyed db) (s : DmService) (c : ConversationId) (id : MessageId)
    (updatedMs now : UInt64) : Steps db (db.run (s.markRead c id updatedMs now)).2 := by
  unfold DmService.markRead
  have h := steps_updateStatus hw c id .read updatedMs
  exact ZeroDb.after_bind (Steps db) (fun _ _ => h) fun _ _ => h

/-- What an inbound sector does to the log is exactly what `Safe` asks about. -/
theorem kept_inbound_iff (blake3 : Bytes → Arr 32) (r : DmReceiver) {db : ZeroDb} (bytes : Bytes)
    (now receiptMs : UInt64) (sectorId : SectorId) (enqueuedMs : UInt64) :
    Kept db (Call.run blake3 r db (.processInboundDm bytes now receiptMs sectorId enqueuedMs)) ↔
      (Call.processInboundDm bytes now receiptMs sectorId enqueuedMs).Safe db := by
  simp only [Call.run, Call.Safe]
  cases hd : decodeDm bytes with
  | error e =>
    rw [run_inbound_error blake3 db r hd]
    exact ⟨fun _ p hp => (by cases hp), fun _ => .refl db⟩
  | ok p =>
    have hupd := update_inbound blake3 db r hd now receiptMs sectorId enqueuedMs
    rw [hupd.kept_iff]
    constructor
    · intro h p' hp m hm
      cases hp
      have hk := h m hm
      exact ⟨hk.text.symm, hk.senderIdentity.symm, hk.senderMachine.symm, hk.createdAtMs.symm, hk.status⟩
    · intro h m hm
      obtain ⟨ht, hi, hmach, hc, hs⟩ := h p rfl m hm
      exact ⟨ht.symm, hi.symm, hmach.symm, hc.symm, hs⟩

theorem step_kept (blake3 : Bytes → Arr 32) (r : DmReceiver) {db : ZeroDb} (hw : WellKeyed db) {call : Call}
    (hs : call.Safe db) : Steps db (call.run blake3 r db) := by
  cases call with
  | sendText c text now id sectorId =>
    simp only [Call.run]
    rcases update_sendText db r.service c text now id sectorId with hsame | hupd
    · rw [hsame]
      exact ⟨hw, .refl db⟩
    · refine ⟨hupd.wellKeyed hw, hupd.kept_iff.mpr fun m hm => ?_⟩
      have hfresh : messageAt db c id = none := hs
      cases hfresh.symm.trans hm
  | processInboundDm bytes now receiptMs sectorId enqueuedMs =>
    have hkept := (kept_inbound_iff blake3 r bytes now receiptMs sectorId enqueuedMs).mpr hs
    exact ⟨hw.inbound blake3 r bytes now receiptMs sectorId enqueuedMs, hkept⟩
  | processReceipt receipt now => exact steps_updateStatus hw _ _ _ _
  | acknowledgeSent c id now => exact steps_updateStatus hw _ _ _ _
  | markRead c id updatedMs now => exact steps_markRead hw r.service c id updatedMs now
  | markReadAndEmit c id outbox updatedMs now sectorId enqueuedMs =>
    simp only [Call.run, DmService.markReadAndEmit]
    have hread := steps_markRead hw r.service c id updatedMs now
    refine ZeroDb.after_bind (Steps db) (fun receipt _ => ?_) fun _ _ => hread
    have hupd := update_enqueueReceipt (db.run (r.service.markRead c id updatedMs now)).2 outbox receipt sectorId
      enqueuedMs
    have h : Steps db _ := ⟨hupd.wellKeyed hread.1, hread.2.trans hupd.kept_none⟩
    exact ZeroDb.after_bind (Steps db) (fun _ _ => h) fun _ _ => h

/-! ## Runs -/

/-- Every call of the run meets its condition where it is made. -/
def SafeRun (blake3 : Bytes → Arr 32) (r : DmReceiver) (db : ZeroDb) (calls : List Call) : Prop :=
  ∀ pre call post, calls = pre ++ call :: post → call.Safe (runCalls blake3 r db pre)

theorem run_kept (blake3 : Bytes → Arr 32) (r : DmReceiver) {db : ZeroDb} (hw : WellKeyed db) (calls : List Call)
    (hs : SafeRun blake3 r db calls) : Steps db (runCalls blake3 r db calls) := by
  induction calls generalizing db with
  | nil => exact ⟨hw, .refl db⟩
  | cons call calls ih =>
    obtain ⟨hw₁, hk₁⟩ := step_kept blake3 r hw (hs [] call calls rfl)
    obtain ⟨hw₂, hk₂⟩ := ih hw₁ fun pre c post h => hs (call :: pre) c post (by rw [h]; rfl)
    exact ⟨hw₂, hk₁.trans hk₂⟩

/-- **The message log is append-only and statuses only go forward** in every
run whose calls are `Safe`: each message stored at some point of the run is
there at every later point, with the same text, sender and creation time and
a status no lower. -/
theorem dm_log_monotone (blake3 : Bytes → Arr 32) (r : DmReceiver) {db : ZeroDb} (hw : WellKeyed db)
    (calls : List Call) (hs : SafeRun blake3 r db calls) :
    ∀ pre mid post, calls = pre ++ mid ++ post →
      Kept (runCalls blake3 r db pre) (runCalls blake3 r db (pre ++ mid)) := by
  intro pre mid post h
  have hpre : SafeRun blake3 r db pre := fun a call b hab => hs a call (b ++ mid ++ post) (by rw [h, hab]; simp)
  have hw' := (run_kept blake3 r hw pre hpre).1
  have hsplit : runCalls blake3 r db (pre ++ mid) = runCalls blake3 r (runCalls blake3 r db pre) mid :=
    List.foldl_append
  have hmid : SafeRun blake3 r (runCalls blake3 r db pre) mid := by
    intro a call b hab
    have := hs (pre ++ a) call (b ++ post) (by rw [h, hab]; simp)
    rwa [runCalls, List.foldl_append] at this
  rw [hsplit]
  exact (run_kept blake3 r hw' mid hmid).2

/-- A receiver whose address book is empty: the sender of an inbound sector
is then no contact, and no conversation id is hashed. -/
def stranger : DmReceiver := ⟨⟨⟨Arr.fill 16 1⟩, ⟨Arr.fill 16 1⟩, ⟨⟨Arr.fill 16 1⟩⟩⟩, ⟨Arr.fill 16 1⟩, ⟨Arr.fill 16 1⟩⟩

/-- An inbound sector. -/
def hello : DmSectorPayload := ⟨⟨Arr.fill 16 7⟩, ⟨Arr.fill 32 9⟩, ⟨Arr.fill 16 2⟩, ⟨Arr.fill 16 3⟩, Str.empty, 5⟩

theorem dm_log_monotone_hello :
    let inbound := Call.processInboundDm (DmSectorPayload.codec.enc hello) 10 10 ⟨Arr.fill 16 1⟩ 10
    let calls := [inbound, .markRead hello.conversationId hello.messageId 20 20]
    Kept (runCalls (fun _ => Arr.fill 32 0) stranger ZeroDb.empty [inbound])
      (runCalls (fun _ => Arr.fill 32 0) stranger ZeroDb.empty calls) := by
  intro inbound calls
  have hw : WellKeyed ZeroDb.empty := fun _ _ h => by cases h
  have hs : SafeRun (fun _ => Arr.fill 32 0) stranger ZeroDb.empty calls := by
    intro pre call post h
    rcases pre with _ | ⟨c₁, _ | ⟨c₂, pre⟩⟩
    · obtain ⟨rfl, -⟩ := List.cons.inj h
      intro p _ m hm
      cases hm
    · obtain ⟨rfl, -⟩ := List.cons.inj (List.cons.inj h).2
      exact trivial
    · simp [calls] at h
  exact dm_log_monotone _ stranger hw calls hs [inbound] [.markRead hello.conversationId hello.messageId 20 20] [] rfl

/-- The same bytes are delivered again after their message was read. -/
theorem redelivery_lowers_status :
    let inbound := Call.processInboundDm (DmSectorPayload.codec.enc hello) 10 10 ⟨Arr.fill 16 1⟩ 10
    let read := Call.markRead hello.conversationId hello.messageId 20 20
    let before := runCalls (fun _ => Arr.fill 32 0) stranger ZeroDb.empty [inbound, read]
    let after := runCalls (fun _ => Arr.fill 32 0) stranger ZeroDb.empty [inbound, read, inbound]
    ((messageAt before hello.conversationId hello.messageId).map (·.status) = some .read ∧
      (messageAt after hello.conversationId hello.messageId).map (·.status) = some .delivered) ∧
      MessageStatus.delivered < .read := by
  decide +kernel

end ZeroSdk.Dm
