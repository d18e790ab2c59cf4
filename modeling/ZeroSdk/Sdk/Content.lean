/-
What survives races, for messages. A status change reads a message and writes
all of it back, so one that overlaps another may take a status back. It does
not touch what the message says: text, sender and creation time are those of
the message that was stored first, as long as nothing is stored anew under
the same ids (`message_unchanged`). For a sector that is delivered again this
is so, since it carries the same message.

A group message is not stored anew by `receive_message` either, which looks
first; only `send_message` with an id it has drawn before could do that
(`group_message_unchanged`).
-/
import ZeroSdk.Group.Messages
import ZeroSdk.Sdk.Races

namespace ZeroSdk
open Prog
open ZeroDb (handleAt)

/-! ## Direct messages -/

namespace Dm

/-- The same message, but for its status. -/
def Message.SaysSame (m m' : Message) : Prop :=
  m' = { m with status := m'.status, statusUpdatedAtMs := m'.statusUpdatedAtMs }

theorem Message.SaysSame.withStatus {m m' : Message} (h : m.SaysSame m') (status : MessageStatus) (now : UInt64) :
    m.SaysSame { m' with status, statusUpdatedAtMs := now } := by
  unfold SaysSame at h ⊢
  rw [h]

/-- The value is a message that says what `m` says. -/
def Says (m : Message) (v : Bytes) : Prop := ∃ m', v = Message.codec.enc m' ∧ m.SaysSame m'

/-- A message that says what `m` says is stored under its ids. -/
abbrev Unaltered (m : Message) : ZeroDb → Prop := Pinned Stored .chains (makeMsgKey m.conversationId m.id) (Says m)

variable {m : Message} {db : ZeroDb}

theorem Unaltered.of_messageAt {c : ConversationId} {id : MessageId} (hdb : Contents Stored db)
    (h : messageAt db c id = some m) : c = m.conversationId ∧ id = m.id ∧ Unaltered m db := by
  obtain ⟨b, hb, hdec⟩ := Option.bind_eq_some_iff.mp h
  obtain ⟨m', rfl, rfl, rfl⟩ := stored_message (hdb .chains _ b hb)
  rw [decodeMessage_enc] at hdec
  cases hdec
  exact ⟨rfl, rfl, hdb, _, hb, m, rfl, rfl⟩

theorem Unaltered.messageAt (h : Unaltered m db) : ∃ m', Dm.messageAt db m.conversationId m.id = some m' ∧ m.SaysSame m' := by
  obtain ⟨v, hv, m', rfl, hsame⟩ := h.held
  exact ⟨m', by rw [Dm.messageAt, hv, Option.bind_some, decodeMessage_enc]; rfl, hsame⟩

theorem unaltered_storeMessage {msg : Message}
    (h : msg.conversationId = m.conversationId → msg.id = m.id → m.SaysSame msg) :
    (DmService.storeMessage msg).Safe handleAt (Unaltered m) fun _ => True := by
  refine (pinned_putRaw (.inr ⟨msg, rfl, rfl⟩) fun _ hkey => ?_).anyErr _
  obtain ⟨hc, hid⟩ := makeMsgKey_inj hkey
  exact ⟨msg, rfl, h hc hid⟩

theorem unaltered_saveConversation (conv : Conversation) :
    (DmService.saveConversation conv).Safe handleAt (Unaltered m) fun _ => True := by
  refine (pinned_putRaw (.inl ⟨conv, rfl, rfl⟩) fun _ hkey => ?_).anyErr _
  exact absurd hkey (storageKey_ne _ _ _)

theorem unaltered_getMessage (c : ConversationId) (id : MessageId) : (DmService.getMessage c id).Safe handleAt (Unaltered m)
    (Returns (fun _ => True) fun o => ∀ msg, o = some msg →
      msg.conversationId = m.conversationId → msg.id = m.id → m.SaysSame msg) := by
  refine pinned_getCf.andThen fun r hr => ?_
  cases r with
  | error e => exact .ret trivial
  | ok b =>
    cases b with
    | none => exact .ret fun msg hmsg => by cases hmsg
    | some v =>
      obtain ⟨msg, rfl, rfl, rfl⟩ := stored_message (hr.1 v rfl)
      change Safe _ _ _ (Prog.bind (lift (decodeMessage (Message.codec.enc msg))) _)
      rw [decodeMessage_enc]
      refine .ret fun msg' hmsg hc hid => ?_
      cases hmsg
      obtain ⟨v, hv, m', hm', hsame⟩ := hr.2 _ rfl rfl (by rw [hc, hid])
      cases hv
      rw [Postcard.enc_injective _ hm']
      exact hsame

theorem unaltered_updateStatus (c : ConversationId) (id : MessageId) (new : MessageStatus) (nowMs : UInt64) :
    (DmService.updateStatus c id new nowMs).Safe handleAt (Unaltered m) fun _ => True := by
  refine (unaltered_getMessage c id).seq fun o ho => ?_
  cases o with
  | none => exact .ret trivial
  | some msg =>
    change Safe _ _ _ (if !msg.status.isValidTransition new then _ else _)
    split
    · exact .ret trivial
    · exact unaltered_storeMessage fun hc hid => (ho msg rfl hc hid).withStatus new nowMs

theorem unaltered_enqueue (outbox : Outbox) (entry : OutboxEntry) : (outbox.enqueue entry).Safe handleAt (Unaltered m)
    (Returns StorageError.Expected fun _ => True) :=
  pinned_of_within (Outbox.within_enqueue (A := {.outbox}) rfl outbox entry) (by simp) (outbox.safe_enqueue entry)

theorem unaltered_history (c : ConversationId) (before : Option MessageId) (limit : Nat) :
    (DmService.history c before limit).Safe handleAt (Unaltered m) fun _ => True := by
  refine (pinned_iteratorCf (E := fun _ => True)).seq fun items _ => ?_
  split
  · exact Safe.seq (Q := fun _ => True) (.ret trivial) fun _ _ => .ret trivial
  · exact .ret trivial

theorem unaltered_enqueueReceipt (outbox : Outbox) (receipt : ReceiptPayload) (sectorId : SectorId) (nowMs : UInt64) :
    (enqueueReceipt outbox receipt sectorId nowMs).Safe handleAt (Unaltered m) fun _ => True :=
  ((unaltered_enqueue outbox _).anyErr _).seq fun _ _ => .ret trivial

theorem unaltered_openConversation (blake3 : Bytes → Arr 32) (s : DmService) (peer : IdentityId) :
    (s.openConversation blake3 peer).Safe handleAt (Unaltered m) fun _ => True := by
  have hcontact : (s.contacts.getContact peer).Safe handleAt (Unaltered m) fun _ => True :=
    (pinned_of_within (ContactStore.within_getContact (A := {.contacts}) rfl s.contacts peer) (by simp)
      (s.contacts.safe_getContact peer)).mono fun _ _ => trivial
  refine (hcontact.anyErr _).seq fun contact _ => ?_
  split
  · exact .ret trivial
  · refine (pinned_getRaw.anyErr _).seq fun b _ => ?_
    cases b with
    | some v => exact .ret trivial
    | none =>
      have hsave := unaltered_saveConversation (m := m) ⟨ConversationId.derive blake3 s.identity peer, peer, none⟩
      exact hsave.seq fun _ _ => .ret trivial

end Dm

namespace Sdk
open Dm

/-- The message a call stores that it did not read. -/
def DmCall.stores : DmCall → Option Message
  | .storeMessage msg => some msg
  | .sendText s c text nowMs id _ => some ⟨id, c, s.identity, s.machineId, text, .queued, nowMs, nowMs⟩
  | .processInboundDm _ bytes nowMs _ _ _ => (decodeDm bytes).toOption.map (·.toMessage nowMs)
  | _ => none

/-- The call does not store anything else under the ids of `m`. -/
def Call.Respects (m : Message) : Call → Prop
  | .dm c => ∀ msg, c.stores = some msg → msg.conversationId = m.conversationId → msg.id = m.id → m.SaysSame msg
  | _ => True

theorem DmCall.unaltered (blake3 : Bytes → Arr 32) {m : Message} {c : DmCall} (hc : Call.Respects m (.dm c)) :
    (c.prog blake3).Safe handleAt (Unaltered m) fun _ => True := by
  cases c with
  | openConversation s peer => exact (unaltered_openConversation blake3 s peer).anyErr _
  | resumeConversation c =>
    refine Safe.anyErr (Q := fun _ => True) ((pinned_getRaw.anyErr _).seq fun b _ => ?_) _
    cases b with
    | none => exact .ret trivial
    | some v => exact .ret trivial
  | saveConversation conv => exact (unaltered_saveConversation conv).anyErr _
  | storeMessage msg => exact (unaltered_storeMessage (hc msg rfl)).anyErr _
  | history c before limit =>
    exact (unaltered_history c before limit).anyErr _
  | paginateMessages c before limit =>
    refine Safe.anyErr (Q := fun _ => True) ?_ _
    by_cases hlimit : limit = 0
    · rw [hlimit]
      exact .ret trivial
    · rw [Dm.paginateMessages_eq c before hlimit]
      exact unaltered_history c before limit
  | getMessage c id => exact (unaltered_getMessage c id).anyErr _
  | updateStatus c id new nowMs => exact (unaltered_updateStatus c id new nowMs).anyErr _
  | processReceipt r nowMs => exact (unaltered_updateStatus _ _ _ nowMs).anyErr _
  | acknowledgeSent c id nowMs => exact (unaltered_updateStatus c id .sent nowMs).anyErr _
  | markRead s c id updatedMs nowMs => exact ((unaltered_updateStatus c id .read updatedMs).seq fun _ _ => .ret trivial).anyErr _
  | markReadAndEmit s c id outbox updatedMs nowMs sectorId enqueuedMs =>
    have hread : (s.markRead c id updatedMs nowMs).Safe handleAt (Unaltered m) fun _ => True :=
      (unaltered_updateStatus c id .read updatedMs).seq fun _ _ => .ret trivial
    exact (hread.seq fun receipt _ => (unaltered_enqueueReceipt outbox receipt sectorId enqueuedMs).seq fun _ _ =>
      .ret trivial).anyErr _
  | sendText s c text nowMs id sectorId =>
    refine Safe.anyErr (Q := fun _ => True) ?_ _
    refine Safe.seq (Q := fun _ => True) ((pinned_getRaw.anyErr _).seq fun b _ => ?_) fun conv _ => ?_
    · cases b with
      | none => exact .ret trivial
      | some v => exact .ret trivial
    · refine (unaltered_storeMessage (hc _ rfl)).seq fun _ _ => ((unaltered_enqueue _ _).anyErr _).seq fun _ _ => ?_
      exact (unaltered_saveConversation _).seq fun _ _ => .ret trivial
  | enqueueReceipt outbox r sectorId nowMs => exact (unaltered_enqueueReceipt outbox r sectorId nowMs).anyErr _
  | processInboundDm r bytes nowMs receiptMs sectorId enqueuedMs =>
    refine Safe.anyErr (Q := fun _ => True) ?_ _
    unfold DmReceiver.processInboundDm
    cases hdec : decodeDm bytes with
    | error e => exact .ret trivial
    | ok p =>
      have hstore : (DmService.storeMessage (p.toMessage nowMs)).Safe handleAt (Unaltered m) fun _ => True :=
        unaltered_storeMessage (hc _ (by rw [DmCall.stores, hdec]; rfl))
      refine Safe.seq (Q := fun r => r = .ok p) (.ret rfl) fun p' hp' => ?_
      cases hp'
      refine ((unaltered_openConversation blake3 r.service p.senderIdentity).attempt (R := fun _ => True) fun _ _ => trivial).seq
        fun o _ => ?_
      have hrest : ∀ receipt : ReceiptPayload, (DmService.storeMessage (p.toMessage nowMs) >>= fun _ =>
          Dm.enqueueReceipt Outbox.new receipt sectorId enqueuedMs >>= fun _ =>
            (pure p.messageId : DbProg DmError MessageId)).Safe handleAt (Unaltered m) fun _ => True := fun receipt =>
        hstore.seq fun _ _ => (unaltered_enqueueReceipt _ _ _ _).seq fun _ _ => .ret trivial
      split
      · exact .ret trivial
      · exact hrest _

theorem Call.unaltered (blake3 : Bytes → Arr 32) {m : Message} {c : Call} (hc : c.Respects m) :
    (c.prog blake3).Safe handleAt (Unaltered m) fun _ => True := by
  have other : (∀ c', c ≠ .dm c') → (c.prog blake3).Safe handleAt (Unaltered m) fun _ => True := by
    intro hother
    refine (pinned_of_within (c.within blake3) ?_ (c.safe blake3)).mono fun _ _ => trivial
    cases c with
    | dm c => exact absurd rfl (hother c)
    | _ => simp [Call.touches]
  cases c with
  | dm c => exact DmCall.unaltered blake3 hc
  | _ => exact other fun _ h => by cases h

/-- **What a message says never changes.** Any clients of all services on one
sound store, in any schedule and with any failures: a stored message is still
there, and only its status may be another, as long as no call stores another
message under its ids. -/
theorem message_unchanged {ι ε α : Type} [DecidableEq ι] (blake3 : Bytes → Arr 32) {clients : ι → Client ε α} {db : ZeroDb}
    (hdb : Contents Stored db) {c : ConversationId} {id : MessageId} {m : Message} (hm : messageAt db c id = some m)
    (hclients : ∀ i, (clients i).Makes (Call.Respects m)) (sched : List (ι × Option Fault)) :
    ∃ m', messageAt (runClients blake3 db clients sched).state c id = some m' ∧ m.SaysSame m' := by
  obtain ⟨rfl, rfl, hdb'⟩ := Unaltered.of_messageAt hdb hm
  exact Unaltered.messageAt (kept_run blake3 hdb' (fun _ hc => Call.unaltered blake3 hc) hclients sched)

/-- A message on its way to `Read`: its receipt comes in on one device while
it is marked read on another. -/
def note : Message := ⟨⟨Arr.fill 16 7⟩, ⟨Arr.fill 32 9⟩, ⟨Arr.fill 16 1⟩, ⟨Arr.fill 16 1⟩, Str.empty, .sent, 5, 6⟩

def noteDb : ZeroDb := ZeroDb.empty.put .chains (makeMsgKey note.conversationId note.id) (Message.codec.enc note)

def noteReaders : Bool → Client Unit Unit := fun i =>
  .calls (if i then [.dm (.processReceipt ⟨note.id, note.conversationId, ⟨Arr.fill 16 2⟩, ⟨Arr.fill 16 2⟩, .delivered, 8⟩ 9)]
    else [.dm (.updateStatus note.conversationId note.id .read 10)])

/-- The mark is written before the receipt, which takes it back. -/
theorem message_unchanged_note :
    let blake3 : Bytes → Arr 32 := fun _ => Arr.fill 32 9
    let next := (none : Option Fault)
    let sched := [(true, next), (false, next), (false, next), (true, next)]
    ∃ m', messageAt (runClients blake3 noteDb noteReaders sched).state note.conversationId note.id = some m' ∧
      note.SaysSame m' := by
  intro blake3 next sched
  have hdb : Contents Stored noteDb := Contents.empty.put (.inr ⟨note, rfl, rfl⟩)
  have hm : messageAt noteDb note.conversationId note.id = some note := by
    rw [noteDb, messageAt, ZeroDb.get_put_self, Option.bind_some, decodeMessage_enc]
    rfl
  refine message_unchanged blake3 hdb hm (fun i => Client.makes_calls fun c hc => ?_) sched
  cases i with
  | true =>
    rw [List.mem_singleton.mp hc]
    exact fun msg hmsg => by cases hmsg
  | false =>
    rw [List.mem_singleton.mp hc]
    exact fun msg hmsg => by cases hmsg

end Sdk

/-! ## Group messages -/

namespace Group

/-- The same message, but for its status. -/
def GroupMessage.SaysSame (m m' : GroupMessage) : Prop := m' = { m with status := m'.status }

/-- The value is a message that says what `m` says. -/
def Says (m : GroupMessage) (v : Bytes) : Prop := ∃ m', decodeMessage v = .ok m' ∧ m.SaysSame m'

theorem Says.withStatus {m msg : GroupMessage} {v : Bytes} (h : Says m v) (hv : decodeMessage v = .ok msg)
    (status : GroupMessageStatus) : Says m (GroupMessage.codec.enc { msg with status }) := by
  obtain ⟨m', hdec, hsame⟩ := h
  rw [hv] at hdec
  cases hdec
  refine ⟨_, decodeMessage_enc _, ?_⟩
  unfold GroupMessage.SaysSame at hsame ⊢
  rw [hsame]

theorem getMessage_ok_iff {db : ZeroDb} {g : GroupId} {id : GroupMessageId} {m : GroupMessage} :
    (db.run (getMessage g id)).1 = .ok (some m) ↔
      ∃ v, db.get .groups (makeMsgKey g id) = some v ∧ decodeMessage v = .ok m := by
  simp only [getMessage, Prog.run_bind, Prog.run_mapErr, run_getRaw, Except.mapError]
  cases db.get .groups (makeMsgKey g id) with
  | none => simp
  | some v =>
    simp only [Prog.run_bind, Prog.run_lift]
    cases hdec : decodeMessage v with
    | error e => simp [hdec]
    | ok msg => simp [hdec]

end Group

namespace Sdk

/-- The call does not send a message under these ids. -/
def Call.NotUnder (g : Group.GroupId) (id : Group.GroupMessageId) : Call → Prop
  | .group (.sendMessage g' _ _ _ id' _) => ¬ (g' = g ∧ id' = id)
  | _ => True

theorem Call.NotUnder.respects {g : Group.GroupId} {id : Group.GroupMessageId} {m : Group.GroupMessage} {c : Call}
    (hc : c.NotUnder g id) (c' : GroupCall) (hc' : c = .group c') :
    c'.Respects (Group.makeMsgKey g id) (Group.Says m) := by
  subst hc'
  cases c' with
  | createGroup label founders g' ts => exact Group.groupKey_ne _ _ _
  | persistManifest man => exact Group.groupKey_ne _ _ _
  | membership g' c => exact fun hkey => absurd hkey (Group.groupKey_ne _ _ _)
  | sendMessage g' sender machine text id' ts => exact fun hkey => hc (Group.makeMsgKey_inj hkey)
  | processReceipt r => exact fun _ v msg hv hdec => hv.withStatus hdec r.status
  | markDelivered g' id' who machine now => exact fun _ v msg hv hdec => hv.withStatus hdec .delivered
  | markRead g' id' who machine now => exact fun _ v msg hv hdec => hv.withStatus hdec .read
  | _ => trivial

/-- **What a group message says never changes.** Any clients of all services
on one store, in any schedule and with any failures: a stored message of a
group is still there, and only its status may be another, whatever is
received under its id, as long as `send_message` does not draw that id
again. -/
theorem group_message_unchanged {ι ε α : Type} [DecidableEq ι] (blake3 : Bytes → Arr 32) {clients : ι → Client ε α}
    {db : ZeroDb} {g : Group.GroupId} {id : Group.GroupMessageId} {m : Group.GroupMessage}
    (hm : (db.run (Group.getMessage g id)).1 = .ok (some m)) (hclients : ∀ i, (clients i).Makes (Call.NotUnder g id))
    (sched : List (ι × Option Fault)) :
    ∃ m', ((runClients blake3 db clients sched).state.run (Group.getMessage g id)).1 = .ok (some m') ∧ m.SaysSame m' := by
  obtain ⟨v, hv, hdec⟩ := Group.getMessage_ok_iff.mp hm
  have hentry : GroupEntry (Group.makeMsgKey g id) (Group.Says m) db :=
    ⟨fun _ _ _ _ => trivial, v, hv, m, hdec, rfl⟩
  have hrun := kept_run blake3 hentry (fun c hc => Call.entry blake3 (Call.NotUnder.respects hc)) hclients sched
  obtain ⟨v', hv', m', hdec', hsame⟩ := hrun.held
  exact ⟨m', Group.getMessage_ok_iff.mpr ⟨v', hv', hdec'⟩, hsame⟩

/-- The message comes in again under its id with another text while its
receipt does. -/
def post : Group.GroupMessage :=
  ⟨⟨Arr.fill 16 7⟩, ⟨Arr.fill 16 9⟩, ⟨Arr.fill 16 1⟩, ⟨Arr.fill 16 1⟩, Str.empty, 0, 5, .sent⟩

def postDb : ZeroDb :=
  trioDb.put .groups (Group.makeMsgKey post.groupId post.id) (Group.GroupMessage.codec.enc post)

def postReaders : Bool → Client Unit Unit := fun i =>
  .calls (if i then [.group (.receiveMessage { post with createdAtMs := 6 })]
    else [.group (.processReceipt ⟨post.id, post.groupId, ⟨Arr.fill 16 2⟩, ⟨Arr.fill 16 2⟩, .read, 8⟩)])

theorem group_message_unchanged_post :
    let blake3 : Bytes → Arr 32 := fun _ => Arr.fill 32 9
    let next := (none : Option Fault)
    let sched := [(true, next), (false, next), (true, next), (false, next), (true, next)]
    ∃ m', ((runClients blake3 postDb postReaders sched).state.run (Group.getMessage post.groupId post.id)).1 =
      .ok (some m') ∧ post.SaysSame m' := by
  intro blake3 next sched
  have hm : (postDb.run (Group.getMessage post.groupId post.id)).1 = .ok (some post) :=
    Group.getMessage_ok_iff.mpr ⟨_, ZeroDb.get_put_self _ _ _ _, Group.decodeMessage_enc post⟩
  refine group_message_unchanged blake3 hm (fun i => Client.makes_calls fun c hc => ?_) sched
  cases i with
  | true =>
    rw [List.mem_singleton.mp hc]
    trivial
  | false =>
    rw [List.mem_singleton.mp hc]
    trivial

end Sdk

end ZeroSdk
