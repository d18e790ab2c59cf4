/-
The services of the direct messages and the groups keep the store's form
(`Stored`) and read what was asked for, from any such store and in whatever
way RocksDB fails. A conversation, a message, a manifest and a group message
are each under a key made of their own ids, and the four kinds of keys
differ, so a value is never taken for one of another kind.
-/
import ZeroSdk.Group.Invariant
import ZeroSdk.Group.Listing
import ZeroSdk.Sdk.Stored

namespace ZeroSdk
open Prog
open ZeroDb (handleAt)

def Dm.DmError.Expected : Dm.DmError → Prop
  | .storage e => e.Expected
  | .contact e => e.Expected
  | .codec (.inl _) => False
  | _ => True

def Group.GroupError.Expected : Group.GroupError → Prop
  | .storage e => e.Expected
  | .mls _ _ => False
  | _ => True

/-! ## Direct messages -/

namespace Dm
variable {c : ConversationId} {id : MessageId} {v : Bytes}

theorem stored_record (h : Stored .chains c.storageKey v) :
    ∃ conv : Conversation, conv.conversationId = c ∧ v = Conversation.codec.enc conv := by
  rcases h with ⟨conv, hk, hv⟩ | ⟨msg, hk, -⟩
  · exact ⟨conv, (storageKey_inj hk).symm, hv⟩
  · exact absurd hk (storageKey_ne _ _ _)

theorem stored_message (h : Stored .chains (makeMsgKey c id) v) :
    ∃ msg : Message, msg.conversationId = c ∧ msg.id = id ∧ v = Message.codec.enc msg := by
  rcases h with ⟨conv, hk, -⟩ | ⟨msg, hk, hv⟩
  · exact absurd hk.symm (storageKey_ne _ _ _)
  · obtain ⟨hc, hid⟩ := makeMsgKey_inj hk
    exact ⟨msg, hc.symm, hid.symm, hv⟩

theorem safe_enqueueReceipt (outbox : Outbox) (receipt : ReceiptPayload) (sectorId : SectorId) (nowMs : UInt64) :
    (enqueueReceipt outbox receipt sectorId nowMs).Safe handleAt (Contents Stored)
      (Returns DmError.Expected fun r => r = sectorId) := by
  have henqueue : ((outbox.enqueue (outboxEntry sectorId receipt.toAllocvec nowMs)).mapErr DmError.storage).Safe handleAt
      (Contents Stored) (Returns DmError.Expected fun _ => True) := (outbox.safe_enqueue _).mapError fun _ he => he
  exact henqueue.andThen fun _ _ => .ret rfl

namespace DmService

theorem safe_read (key : Bytes) : ((getRaw .chains key).mapErr DmError.storage).Safe handleAt (Contents Stored)
    (Returns DmError.Expected fun b => ∀ v, b = some v → Stored .chains key v) := safe_getRaw.mapError fun _ he => he

theorem safe_saveConversation (conv : Conversation) :
    (saveConversation conv).Safe handleAt (Contents Stored) (Returns DmError.Expected fun _ => True) :=
  (safe_putRaw (.inl ⟨conv, rfl, rfl⟩)).mapError fun _ he => he

theorem safe_storeMessage (msg : Message) :
    (storeMessage msg).Safe handleAt (Contents Stored) (Returns DmError.Expected fun _ => True) :=
  (safe_putRaw (.inr ⟨msg, rfl, rfl⟩)).mapError fun _ he => he

theorem safe_resumeConversation (c : ConversationId) : (resumeConversation c).Safe handleAt (Contents Stored)
    (Returns DmError.Expected fun conv => conv.conversationId = c) := by
  refine (safe_read _).andThen fun b hb => ?_
  cases b with
  | none => exact .ret trivial
  | some v =>
    obtain ⟨conv, hc, rfl⟩ := stored_record (hb v rfl)
    change Safe _ _ _ (lift (decodeConversation (Conversation.codec.enc conv)))
    rw [decodeConversation_enc]
    exact .ret hc

theorem safe_openConversation (blake3 : Bytes → Arr 32) (s : DmService) (peer : IdentityId) :
    (s.openConversation blake3 peer).Safe handleAt (Contents Stored) (Returns DmError.Expected fun conv =>
      conv.conversationId = ConversationId.derive blake3 s.identity peer) := by
  have hcontact : ((s.contacts.getContact peer).mapErr DmError.contact).Safe handleAt (Contents Stored)
      (Returns DmError.Expected fun _ => True) := by
    refine (s.contacts.safe_getContact peer).mapErr fun r hr => ?_
    cases r with
    | error e => exact hr
    | ok o => trivial
  refine hcontact.andThen fun contact _ => ?_
  split
  · exact .ret trivial
  · refine (safe_read _).andThen fun b hb => ?_
    cases b with
    | some v =>
      obtain ⟨conv, hc, rfl⟩ := stored_record (hb v rfl)
      change Safe _ _ _ (lift (decodeConversation (Conversation.codec.enc conv)))
      rw [decodeConversation_enc]
      exact .ret hc
    | none =>
      have hput : ((putRaw .chains (ConversationId.derive blake3 s.identity peer).storageKey (Conversation.codec.enc
          ⟨ConversationId.derive blake3 s.identity peer, peer, none⟩)).mapErr DmError.storage).Safe handleAt
          (Contents Stored) (Returns DmError.Expected fun _ => True) :=
        (safe_putRaw (.inl ⟨_, rfl, rfl⟩)).mapError fun _ he => he
      exact hput.andThen fun _ _ => .ret rfl

theorem safe_getMessage (c : ConversationId) (id : MessageId) : (getMessage c id).Safe handleAt (Contents Stored)
    (Returns DmError.Expected fun o => ∀ m, o = some m → m.conversationId = c ∧ m.id = id) := by
  refine safe_getCf.andThen fun r hr => ?_
  cases r with
  | error e => exact .ret trivial
  | ok b =>
    cases b with
    | none => exact .ret fun m hm => by cases hm
    | some v =>
      obtain ⟨msg, hc, hid, rfl⟩ := stored_message (hr v rfl)
      change Safe _ _ _ (Prog.bind (lift (decodeMessage (Message.codec.enc msg))) _)
      rw [decodeMessage_enc]
      refine .ret fun m hm => ?_
      cases hm
      exact ⟨hc, hid⟩

theorem safe_updateStatus (c : ConversationId) (id : MessageId) (new : MessageStatus) (nowMs : UInt64) :
    (updateStatus c id new nowMs).Safe handleAt (Contents Stored) (Returns DmError.Expected fun _ => True) := by
  refine (safe_getMessage c id).andThen fun o _ => ?_
  cases o with
  | none => exact .ret trivial
  | some msg =>
    change Safe _ _ _ (if !msg.status.isValidTransition new then _ else _)
    split
    · exact .ret trivial
    · exact safe_storeMessage _

theorem safe_markRead (s : DmService) (c : ConversationId) (id : MessageId) (updatedMs nowMs : UInt64) :
    (s.markRead c id updatedMs nowMs).Safe handleAt (Contents Stored) (Returns DmError.Expected fun r =>
      r = ⟨id, c, s.identity, s.machineId, .read, nowMs⟩) :=
  (safe_updateStatus c id .read updatedMs).andThen fun _ _ => .ret rfl

theorem safe_markReadAndEmit (s : DmService) (c : ConversationId) (id : MessageId) (outbox : Outbox)
    (updatedMs nowMs : UInt64) (sectorId : SectorId) (enqueuedMs : UInt64) :
    (s.markReadAndEmit c id outbox updatedMs nowMs sectorId enqueuedMs).Safe handleAt (Contents Stored)
      (Returns DmError.Expected fun r => r = ⟨id, c, s.identity, s.machineId, .read, nowMs⟩) := by
  refine (s.safe_markRead c id updatedMs nowMs).andThen fun receipt hr => ?_
  exact (safe_enqueueReceipt outbox receipt sectorId enqueuedMs).andThen fun _ _ => .ret hr

theorem safe_sendText (s : DmService) (c : ConversationId) (text : Str) (nowMs : UInt64) (id : MessageId)
    (sectorId : SectorId) : (s.sendText c text nowMs id sectorId).Safe handleAt (Contents Stored)
      (Returns DmError.Expected fun r => r = id) := by
  refine (safe_resumeConversation c).andThen fun conv _ => ?_
  refine (safe_storeMessage _).andThen fun _ _ => ?_
  have henqueue : ∀ entry, ((Outbox.new.enqueue entry).mapErr DmError.storage).Safe handleAt (Contents Stored)
      (Returns DmError.Expected fun _ => True) := fun entry => (Outbox.new.safe_enqueue entry).mapError fun _ he => he
  refine (henqueue _).andThen fun _ _ => ?_
  exact (safe_saveConversation _).andThen fun _ _ => .ret rfl

/-! ### Pages -/

/-- What `history` returns: messages of the conversation before the cursor,
the newest first, each once. -/
structure PageOf (c : ConversationId) (before : Option MessageId) (l : List Message) : Prop where
  mem : ∀ m ∈ l, m.conversationId = c ∧ ∀ b, before = some b → m.id < b
  descending : l.Pairwise fun a b => b.id < a.id

theorem PageOf.nil {before : Option MessageId} : PageOf c before [] :=
  ⟨fun _ h => (List.not_mem_nil h).elim, List.Pairwise.nil⟩

theorem stored_of_isPrefix {k : Bytes} (h : Stored .chains k v) (hpre : makeMsgPrefix c <+: k) :
    ∃ msg : Message, k = makeMsgKey c msg.id ∧ msg.conversationId = c ∧ v = Message.codec.enc msg := by
  rcases h with ⟨conv, hk, -⟩ | ⟨msg, hk, hv⟩
  · have hlt := storageKey_lt conv.conversationId c hpre
    rw [hk] at hlt
    exact absurd hlt (lt_irrefl _)
  · have hc : c = msg.conversationId := makeMsgPrefix_isPrefix_iff.mp (hk ▸ hpre)
    exact ⟨msg, hc ▸ hk, hc.symm, hv⟩

/-- The messages taken so far are above every key to come. -/
theorem historyLoop_page {seekKey : Bytes} {before : Option MessageId} {limit : Nat} {results : List Message}
    {items : List (Except RocksError (Bytes × Bytes))} (h : Scanned Stored .chains (.reverse seekKey) items)
    (hseek : ∀ b, before = some b → seekKey = makeMsgKey c b) (hres : PageOf c before results)
    (habove : ∀ m ∈ results, ∀ k v, .ok (k, v) ∈ items → k < makeMsgKey c m.id)
    (hlen : results.length < max limit 1) :
    Returns DmError.Expected (fun l => PageOf c before l ∧ l.length ≤ max limit 1)
      (historyLoop (makeMsgPrefix c) seekKey before limit results items) := by
  induction items generalizing results with
  | nil => exact ⟨hres, hlen.le⟩
  | cons x items ih =>
    cases x with
    | error e => trivial
    | ok e =>
      obtain ⟨k, v⟩ := e
      have habove' : ∀ m ∈ results, ∀ k v, .ok (k, v) ∈ items → k < makeMsgKey c m.id :=
        fun m hm k v hkv => habove m hm k v (List.mem_cons_of_mem _ hkv)
      rw [historyLoop]
      split
      · exact ⟨hres, hlen.le⟩
      split
      · exact ih h.tail hres habove' hlen
      next hpre hskip =>
      obtain ⟨msg, rfl, hc, rfl⟩ := stored_of_isPrefix h.head (by simpa using hpre)
      have hcursor : ∀ b, before = some b → msg.id < b := by
        intro b hb
        have hle : makeMsgKey c msg.id ≤ seekKey := (h.entry _ _ List.mem_cons_self).2
        have hne : makeMsgKey c msg.id ≠ seekKey := by
          intro heq
          rw [hb, heq] at hskip
          simp at hskip
        rw [hseek b hb] at hle hne
        exact (makeMsgKey_lt_iff c).mp (lt_of_le_of_ne hle hne)
      have hnew : PageOf c before (results ++ [msg]) := by
        refine ⟨fun m hm => ?_, List.pairwise_append.mpr ⟨hres.descending, List.pairwise_singleton _ _, fun m hm m' hm' => ?_⟩⟩
        · rcases List.mem_append.mp hm with hm | hm
          · exact hres.mem m hm
          · rw [List.mem_singleton.mp hm]
            exact ⟨hc, hcursor⟩
        · rw [List.mem_singleton.mp hm']
          exact (makeMsgKey_lt_iff c).mp (habove m hm _ _ List.mem_cons_self)
      rw [decodeMessage_enc]
      simp only
      split
      · refine ⟨hnew, ?_⟩
        rw [List.length_append, List.length_singleton]
        omega
      · next hroom =>
        refine ih h.tail hnew (fun m hm k v hkv => ?_) ?_
        · rcases List.mem_append.mp hm with hm | hm
          · exact habove' m hm k v hkv
          · rw [List.mem_singleton.mp hm]
            exact h.before hkv
        · rw [List.length_append, List.length_singleton]
          omega

/-- A page of at most `most` messages, or the panic of a limit there is no
room for. -/
def PageOrPanic (c : ConversationId) (before : Option MessageId) (limit most : Nat) (o : Option (List Message)) : Prop :=
  (o = none ↔ ¬ HasCapacity limit) ∧ ∀ l, o = some l → PageOf c before l ∧ l.length ≤ most

theorem PageOrPanic.some {before : Option MessageId} {limit most : Nat} {l : List Message} (hcap : HasCapacity limit)
    (hl : PageOf c before l) (hlen : l.length ≤ most) : PageOrPanic c before limit most (some l) := by
  refine ⟨iff_of_false (Option.some_ne_none l) (not_not_intro hcap), fun l' hl' => ?_⟩
  cases hl'
  exact ⟨hl, hlen⟩

theorem safe_history (c : ConversationId) (before : Option MessageId) (limit : Nat) :
    (history c before limit).Safe handleAt (Contents Stored)
      (Returns DmError.Expected (PageOrPanic c before limit (max limit 1))) := by
  refine safe_iteratorCf.andThen fun items hitems => ?_
  split
  · next hcap =>
    refine Safe.andThen (P := fun l => PageOf c before l ∧ l.length ≤ max limit 1) (Safe.ret ?_) fun l hl =>
      .ret (.some hcap hl.1 hl.2)
    refine historyLoop_page hitems (fun b hb => ?_) .nil (fun m hm => by cases hm) (by simp)
    rw [hb]
  · next hcap => exact .ret ⟨iff_of_true rfl hcap, fun l hl => by cases hl⟩

end DmService

theorem safe_paginateMessages (c : ConversationId) (before : Option MessageId) (limit : Nat) :
    (paginateMessages c before limit).Safe handleAt (Contents Stored)
      (Returns DmError.Expected (DmService.PageOrPanic c before limit limit)) := by
  by_cases hlimit : limit = 0
  · subst hlimit
    exact .ret (.some (by decide) .nil (Nat.le_refl 0))
  · rw [paginateMessages_eq c before hlimit]
    refine (DmService.safe_history c before limit).mono fun r hr => hr.mono (fun _ he => he) fun o ho => ?_
    rwa [max_eq_left (Nat.pos_of_ne_zero hlimit)] at ho

/-- A sector that is processed decodes; one that does not is refused. -/
theorem DmReceiver.safe_processInboundDm (blake3 : Bytes → Arr 32) (r : DmReceiver) (bytes : Bytes)
    (nowMs receiptMs : UInt64) (sectorId : SectorId) (enqueuedMs : UInt64) :
    (r.processInboundDm blake3 bytes nowMs receiptMs sectorId enqueuedMs).Safe handleAt (Contents Stored)
      (Returns (fun e => e.Expected ∨ decodeDm bytes = .error e)
        fun id => ∃ p, decodeDm bytes = .ok p ∧ id = p.messageId) := by
  unfold processInboundDm
  cases hdec : decodeDm bytes with
  | error e => exact .ret (.inr rfl)
  | ok p =>
    change Safe _ _ _ (Prog.bind ((r.service.openConversation blake3 p.senderIdentity).attempt) _)
    have hrest : (do
        DmService.storeMessage (p.toMessage nowMs)
        let receipt := buildDeliveredReceipt p.messageId p.conversationId r.identity r.machineId receiptMs
        let _ ← enqueueReceipt Outbox.new receipt sectorId enqueuedMs
        pure p.messageId : DbProg DmError MessageId).Safe handleAt (Contents Stored)
          (Returns DmError.Expected fun id => id = p.messageId) := by
      refine (DmService.safe_storeMessage _).andThen fun _ _ => ?_
      exact (safe_enqueueReceipt _ _ _ _).andThen fun _ _ => .ret rfl
    have hopen : ((r.service.openConversation blake3 p.senderIdentity).attempt : DbProg DmError _).Safe handleAt
        (Contents Stored) (Returns DmError.Expected (Returns DmError.Expected fun conv =>
          conv.conversationId = ConversationId.derive blake3 r.service.identity p.senderIdentity)) :=
      (DmService.safe_openConversation blake3 r.service p.senderIdentity).attempted
    refine (hopen.andThen (O := fun id => id = p.messageId) fun opened ho => ?_).mono fun r hr =>
      hr.mono (fun _ he => .inl he) fun id hid => ⟨p, rfl, hid⟩
    rcases opened with e | conv
    · cases e with
      | storage e => exact .ret ho
      | _ => exact hrest
    · exact hrest

end Dm

/-! ## Groups -/

namespace Group
variable {g : GroupId} {id : GroupMessageId} {v : Bytes}

theorem makeMsgKey_length (g : GroupId) (id : GroupMessageId) : (makeMsgKey g id).length = 42 := by
  rw [makeMsgKey, List.length_append, List.length_append, groupMsgPrefix_length, g.bytes.property, id.bytes.property]

theorem groupKey_ne (g g' : GroupId) (id : GroupMessageId) : g.bytes.val ≠ makeMsgKey g' id := by
  intro h
  have hlen := congrArg List.length h
  rw [g.bytes.property, makeMsgKey_length] at hlen
  cases hlen

theorem stored_manifest (h : Stored .groups g.bytes.val v) :
    ∃ man : GroupManifest, man.groupId = g ∧ v = encodeManifest man := by
  rcases h with ⟨man, hk, hv⟩ | ⟨msg, hk, -⟩
  · exact ⟨man, (GroupId.key_inj.mp hk).symm, hv⟩
  · exact absurd hk (groupKey_ne _ _ _)

theorem stored_message (h : Stored .groups (makeMsgKey g id) v) :
    ∃ msg : GroupMessage, msg.groupId = g ∧ msg.id = id ∧ v = GroupMessage.codec.enc msg := by
  rcases h with ⟨man, hk, -⟩ | ⟨msg, hk, hv⟩
  · exact absurd hk.symm (groupKey_ne _ _ _)
  · obtain ⟨hg, hid⟩ := makeMsgKey_inj hk
    exact ⟨msg, hg.symm, hid.symm, hv⟩

theorem safe_read (key : Bytes) : ((getRaw .groups key).mapErr GroupError.storage).Safe handleAt (Contents Stored)
    (Returns GroupError.Expected fun b => ∀ v, b = some v → Stored .groups key v) := safe_getRaw.mapError fun _ he => he

theorem safe_putManifest (man : GroupManifest) :
    ((putRaw .groups man.groupId.bytes.val (encodeManifest man)).mapErr GroupError.storage).Safe handleAt
      (Contents Stored) (Returns GroupError.Expected fun _ => True) :=
  (safe_putRaw (.inl ⟨man, rfl, rfl⟩)).mapError fun _ he => he

theorem safe_putMessage (msg : GroupMessage) :
    ((putRaw .groups (makeMsgKey msg.groupId msg.id) (GroupMessage.codec.enc msg)).mapErr GroupError.storage).Safe
      handleAt (Contents Stored) (Returns GroupError.Expected fun _ => True) :=
  (safe_putRaw (.inr ⟨msg, rfl, rfl⟩)).mapError fun _ he => he

theorem safe_createGroup (label : Str) (founders : Vec IdentityId) (g : GroupId) (ts : UInt64) :
    (createGroup label founders g ts).Safe handleAt (Contents Stored)
      (Returns GroupError.Expected fun r => r = g ∧ label.bytes.length ≤ 64) := by
  unfold createGroup
  split
  · exact .ret trivial
  · next hlabel =>
    have hlen : label.bytes.length ≤ 64 := by omega
    refine Safe.andThen (safe_putManifest (normalizeMembers ⟨g, label, _, _, 0, Vec.empty, ts, ts⟩)) fun _ _ => ?_
    exact .ret ⟨rfl, hlen⟩

theorem safe_getManifest (g : GroupId) : (getManifest g).Safe handleAt (Contents Stored)
    (Returns GroupError.Expected fun man => man.groupId = g) := by
  refine (safe_read _).andThen fun b hb => ?_
  cases b with
  | none => exact .ret trivial
  | some v =>
    obtain ⟨man, hg, rfl⟩ := stored_manifest (hb v rfl)
    change Safe _ _ _ (lift (decodeManifest (encodeManifest man)))
    rw [decodeManifest_encodeManifest]
    exact .ret hg

theorem safe_loadManifest (g : GroupId) : (loadManifest g).Safe handleAt (Contents Stored)
    (Returns GroupError.Expected fun o => ∀ man, o = some man → man.groupId = g) := by
  refine (safe_read _).andThen fun b hb => ?_
  cases b with
  | none => exact .ret fun man hman => by cases hman
  | some v =>
    obtain ⟨man, hg, rfl⟩ := stored_manifest (hb v rfl)
    change Safe _ _ _ (Prog.bind (lift (decodeManifest (encodeManifest man))) _)
    rw [decodeManifest_encodeManifest]
    refine .ret fun man' hman => ?_
    cases hman
    exact hg

/-! ### Membership -/

/-- A membership call neither moves a manifest to another group nor fails
because of what is stored. -/
theorem decision_returns (c : Call) (man : GroupManifest) :
    Returns GroupError.Expected (fun o => ∀ man', o = some man' → man'.groupId = man.groupId) (c.decision man) := by
  cases hdec : c.decision man with
  | error e =>
    change e.Expected
    cases c with
    | addMember caller new addedAt now =>
      simp only [Call.decision, addMemberIn] at hdec
      split at hdec
      · cases hdec; trivial
      split at hdec
      · cases hdec; trivial
      split at hdec
      · cases hdec
      split at hdec
      · cases hdec; trivial
      · cases hdec
    | removeMember caller target now =>
      simp only [Call.decision, removeMemberIn] at hdec
      split at hdec
      · cases hdec; trivial
      split at hdec
      · cases hdec; trivial
      split at hdec
      · cases hdec; trivial
      split at hdec
      · cases hdec; trivial
      · cases hdec
    | promote caller target role now | demote caller target role now =>
      simp only [Call.decision, promoteIn, demoteIn, changeRole] at hdec
      split at hdec
      · cases hdec; trivial
      split at hdec
      · cases hdec; trivial
      split at hdec
      · cases hdec; trivial
      split at hdec
      · cases hdec; trivial
      · cases hdec
  | ok o =>
    intro man' hman
    subst hman
    cases c with
    | addMember caller new addedAt now =>
      obtain ⟨cm, ms, -, -, -, -, -, rfl⟩ := addMemberIn_some hdec
      rfl
    | removeMember caller target now =>
      obtain ⟨cm, tm, -, -, -, -, hr⟩ := removeMemberIn_some hdec
      cases hr
      rfl
    | promote caller target role now | demote caller target role now =>
      simp only [Call.decision, promoteIn, demoteIn] at hdec
      obtain ⟨cm, tm, ms, -, -, -, -, -, hr⟩ := changeRole_some hdec
      cases hr
      rfl

theorem safe_membership (g : GroupId) (c : Call) :
    (c.prog g).Safe handleAt (Contents Stored) (Returns GroupError.Expected fun _ => True) := by
  rw [c.prog_eq]
  refine (safe_getManifest g).andThen fun man hg => ?_
  have hdec := decision_returns c man
  cases h : c.decision man with
  | error e =>
    rw [h] at hdec
    exact .ret hdec
  | ok o =>
    rw [h] at hdec
    cases o with
    | none => exact .ret trivial
    | some man' =>
      have hg' : man'.groupId = g := (hdec man' rfl).trans hg
      simp only
      rw [← hg']
      exact safe_putManifest man'

/-! ### Messages -/

theorem safe_sendMessage (g : GroupId) (sender : IdentityId) (machine : MachineId) (text : Str) (id : GroupMessageId)
    (ts : UInt64) : (sendMessage g sender machine text id ts).Safe handleAt (Contents Stored)
      (Returns GroupError.Expected fun r => r = id) := by
  refine (safe_getManifest g).andThen fun man _ => ?_
  split
  · exact .ret trivial
  · exact (safe_putMessage ⟨id, g, sender, machine, text, man.mlsEpoch, ts, .sent⟩).andThen fun _ _ => .ret rfl

theorem safe_receiveMessage (msg : GroupMessage) :
    (receiveMessage msg).Safe handleAt (Contents Stored) (Returns GroupError.Expected fun _ => True) := by
  refine (safe_getManifest _).andThen fun man _ => (safe_read _).andThen fun known _ => ?_
  split
  · exact .ret trivial
  · exact (safe_putMessage msg).andThen fun _ _ => .ret trivial

theorem safe_getMessage (g : GroupId) (id : GroupMessageId) : (getMessage g id).Safe handleAt (Contents Stored)
    (Returns GroupError.Expected fun o => ∀ m, o = some m → m.groupId = g ∧ m.id = id) := by
  refine (safe_read _).andThen fun b hb => ?_
  cases b with
  | none => exact .ret fun m hm => by cases hm
  | some v =>
    obtain ⟨msg, hg, hid, rfl⟩ := stored_message (hb v rfl)
    change Safe _ _ _ (Prog.bind (lift (decodeMessage (GroupMessage.codec.enc msg))) _)
    rw [decodeMessage_enc]
    refine .ret fun m hm => ?_
    cases hm
    exact ⟨hg, hid⟩

theorem safe_processReceipt (r : GroupReceiptPayload) :
    (processReceipt r).Safe handleAt (Contents Stored) (Returns GroupError.Expected fun _ => True) := by
  refine (safe_read _).andThen fun b hb => ?_
  cases b with
  | none => exact .ret trivial
  | some v =>
    obtain ⟨msg, hg, hid, rfl⟩ := stored_message (hb v rfl)
    change Safe _ _ _ (Prog.bind (lift (decodeMessage (GroupMessage.codec.enc msg))) _)
    rw [decodeMessage_enc]
    change Safe _ _ _ (if !isForwardTransition msg.status r.status then _ else _)
    split
    · exact .ret trivial
    · rw [← hg, ← hid]
      exact (safe_putMessage { msg with status := r.status }).andThen fun _ _ => .ret trivial

/-- The receipt to send on is the one asked for. -/
theorem safe_markStatus (g : GroupId) (id : GroupMessageId) (who : IdentityId) (machine : MachineId)
    (status : GroupMessageStatus) (now : UInt64) :
    (markStatus g id who machine status now).Safe handleAt (Contents Stored) (Returns GroupError.Expected fun o =>
      ∀ r, o = some r → r = ⟨id, g, who, machine, status, now⟩) := by
  refine (safe_processReceipt _).andThen fun updated _ => ?_
  split
  · exact .ret fun r hr => (Option.some.inj hr).symm
  · exact .ret fun r hr => by cases hr

/-- What `list_messages` returns: messages of the group before the cursor,
the latest first, each once, no more than the limit. -/
structure PageOf (g : GroupId) (before : Option GroupMessageId) (limit : Nat) (l : List GroupMessage) : Prop where
  mem : ∀ m ∈ l, m.groupId = g ∧ isBefore before m = true
  ordered : l.Pairwise msgOrder
  once : (l.map (·.id)).Nodup
  limit : l.length ≤ limit

theorem listLoop_eq (pre : Bytes) (before : Option GroupMessageId) (items : List (Except RocksError (Bytes × Bytes))) :
    listLoop pre before items = (decodeWhile pre.isPrefixOf decodeMessage (fun e => .storage (.rocks e)) items).map
      fun l => l.filter (isBefore before) := by
  induction items with
  | nil => rfl
  | cons x items ih =>
    cases x with
    | error e => rfl
    | ok e =>
      simp only [listLoop, decodeWhile, ih]
      cases pre.isPrefixOf e.1 with
      | false => rfl
      | true =>
        cases decodeMessage e.2 with
        | error e => rfl
        | ok msg =>
          cases hloop : decodeWhile pre.isPrefixOf decodeMessage (fun e => GroupError.storage (.rocks e)) items with
          | error e => by_cases hb : isBefore before msg = true <;> simp [hb, Except.map]
          | ok l => by_cases hb : isBefore before msg = true <;> simp [hb, Except.map]

theorem makeMsgKey_lt_iff (g : GroupId) {id id' : GroupMessageId} : makeMsgKey g id < makeMsgKey g id' ↔ id < id' :=
  Bytes.append_left_lt_iff

theorem listLoop_page (g : GroupId) (before : Option GroupMessageId)
    {items : List (Except RocksError (Bytes × Bytes))} (h : Scanned Stored .groups (.forward (makeMsgPrefix g)) items) :
    Returns GroupError.Expected (fun l => (∀ m ∈ l, m.groupId = g ∧ isBefore before m = true) ∧ (l.map (·.id)).Nodup)
      (listLoop (makeMsgPrefix g) before items) := by
  have hread : Returns GroupError.Expected
      (Read (fun k (m : GroupMessage) => k = makeMsgKey g m.id ∧ m.groupId = g) (.forward (makeMsgPrefix g)))
      (decodeWhile (makeMsgPrefix g).isPrefixOf decodeMessage (fun e => .storage (.rocks e)) items) := by
    refine (decodeWhile_read h (fun _ => trivial) fun k v hv _ hpre => ?_).1
    rw [List.isPrefixOf_iff_prefix] at hpre
    rcases hv with ⟨man, hk, -⟩ | ⟨msg, hk, rfl⟩
    · rw [hk] at hpre
      exact absurd hpre (not_msgPrefix_groupKey g man.groupId)
    · have hg : g = msg.groupId := makeMsgPrefix_isPrefix_iff.mp (hk ▸ hpre)
      exact ⟨msg, decodeMessage_enc msg, hg ▸ hk, hg.symm⟩
  rw [listLoop_eq]
  cases hloop : decodeWhile (makeMsgPrefix g).isPrefixOf decodeMessage (fun e => GroupError.storage (.rocks e)) items with
  | error e =>
    rw [hloop] at hread
    exact hread
  | ok l =>
    rw [hloop] at hread
    refine ⟨fun m hm => ?_, ?_⟩
    · obtain ⟨hm, hbefore⟩ := List.mem_filter.mp hm
      obtain ⟨k, -, hg⟩ := hread.mem m hm
      exact ⟨hg, hbefore⟩
    · refine List.Nodup.sublist (List.filter_sublist.map _) ?_
      rw [List.Nodup, List.pairwise_map]
      refine hread.sorted.imp fun {a b} hab => ?_
      obtain ⟨k, k', ⟨rfl, -⟩, ⟨rfl, -⟩, hlt⟩ := hab
      exact ne_of_lt ((makeMsgKey_lt_iff g).mp hlt)

theorem safe_listMessages (g : GroupId) (before : Option GroupMessageId) (limit : Nat) :
    (listMessages g before limit).Safe handleAt (Contents Stored)
      (Returns GroupError.Expected (PageOf g before limit)) := by
  refine safe_iteratorCf.andThen fun items hitems => ?_
  refine Safe.andThen (Safe.ret (listLoop_page g before hitems)) fun l hl => .ret ?_
  refine ⟨fun m hm => ?_, ?_, ?_, List.length_take_le _ _⟩
  · exact hl.1 m ((List.mem_insertionSort _).mp (List.mem_of_mem_take hm))
  · exact (List.pairwise_insertionSort msgOrder l).sublist (List.take_sublist _ _)
  · have hnodup := ((List.perm_insertionSort msgOrder l).map (·.id)).nodup_iff.mpr hl.2
    exact hnodup.sublist ((List.take_sublist _ _).map _)

end Group

end ZeroSdk
