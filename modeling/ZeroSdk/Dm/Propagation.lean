/-
Which failures does `process_inbound_dm` report? It opens the conversation
with the sender and goes on if that fails, unless the failure is
`DmError::Storage`. But the lookup of the contact reports a failure of
RocksDB as `DmError::Contact`, so with a lookup that fails the message is
stored and the call returns `Ok` (`failed_lookup_swallowed`). The same goes
for records that do not decode.

Every other part of the call is `Strict`: it fails when one of its
operations does. `propagates_iff` says exactly when the whole is.
-/
import ZeroSdk.Dm.Chains
import ZeroSdk.Storage.Faults

namespace ZeroSdk.Dm
open DmService
open ZeroDb (handleFaulty)

/-- What `process_inbound_dm` does once the conversation is taken care of. -/
def DmReceiver.accept (r : DmReceiver) (p : DmSectorPayload) (nowMs receiptMs : UInt64) (sectorId : SectorId)
    (enqueuedMs : UInt64) : DbProg DmError MessageId := do
  storeMessage (p.toMessage nowMs)
  let receipt := buildDeliveredReceipt p.messageId p.conversationId r.identity r.machineId receiptMs
  let _ ← enqueueReceipt Outbox.new receipt sectorId enqueuedMs
  pure p.messageId

/-- The write of the message. -/
def DmSectorPayload.write (p : DmSectorPayload) (nowMs : UInt64) : StoreOp :=
  .put .chains (makeMsgKey p.conversationId p.messageId) (Message.codec.enc (p.toMessage nowMs))

section
variable (blake3 : Bytes → Arr 32) (r : DmReceiver) (bytes : Bytes) (nowMs receiptMs : UInt64) (sectorId : SectorId)
  (enqueuedMs : UInt64)

/-- The call fails if one of its operations does, and after a failure to open
the conversation it does not write the message, except for a sender who is
no contact. -/
structure Propagates (s : ZeroDb × Faults) : Prop where
  fails : Fails (r.processInboundDm blake3 bytes nowMs receiptMs sectorId enqueuedMs) s →
    ∃ e, ((r.processInboundDm blake3 bytes nowMs receiptMs sectorId enqueuedMs).run handleFaulty s).1 = .error e
  opens : ∀ p e, decodeDm bytes = .ok p →
    ((r.service.openConversation blake3 p.senderIdentity).run handleFaulty s).1 = .error e →
    e ≠ .contactNotFound p.senderIdentity →
      (p.write nowMs, none) ∉ performed (r.processInboundDm blake3 bytes nowMs receiptMs sectorId enqueuedMs) s

end

/-- The contact's bytes, if there are any, decode. -/
def ContactReadable (db : ZeroDb) (s : DmService) (peer : IdentityId) : Prop :=
  ∀ b, db.get .contacts (ContactStore.makeKey s.contacts.owner peer) = some b →
    ∃ c, Postcard.fromBytes Contact.codec b = .ok c

/-- So do the conversation's. -/
def RecordReadable (blake3 : Bytes → Arr 32) (db : ZeroDb) (s : DmService) (peer : IdentityId) : Prop :=
  ∀ b, db.get .chains (ConversationId.derive blake3 s.identity peer).storageKey = some b →
    ∃ conv, Postcard.fromBytes Conversation.codec b = .ok conv

/-- Unless the operation after the lookup fails, the lookup does not and the
contact decodes; unless one of the first three operations fails, the record
of the conversation with a contact decodes. -/
def Surfaces (blake3 : Bytes → Arr 32) (s : DmService) (peer : IdentityId) (db : ZeroDb) (faults : Faults) : Prop :=
  (faults.nth 1 = none → faults.nth 0 = none ∧ ContactReadable db s peer) ∧
  (db.get .contacts (ContactStore.makeKey s.contacts.owner peer) ≠ none →
    faults.nth 0 = none → faults.nth 1 = none → faults.nth 2 = none → RecordReadable blake3 db s peer)

/-! ## Opening the conversation -/

section Open
variable (blake3 : Bytes → Arr 32) (s : DmService) (peer : IdentityId)

theorem strict_openConversation : Strict (s.openConversation blake3 peer) := by
  have hcontact : Strict (s.contacts.getContact peer) := by
    refine (strict_getRaw _ _).attempt_bind (fun v => ?_) fun e s => ⟨_, rfl⟩
    split
    · exact (Strict.ret _).bind fun _ => .ret _
    · exact .ret _
    · exact .ret _
  unfold DmService.openConversation
  refine (hcontact.mapErr _).bind fun contact => ?_
  split
  · exact .ret _
  · refine ((strict_getRaw _ _).mapErr _).bind fun v => ?_
    split
    · exact .ret _
    · exact ((strict_putRaw _ _ _).mapErr _).bind fun _ => .ret _

theorem performs_openConversation :
    Performs (fun o => ∀ k v, o = .put .chains k v → ∃ c : ConversationId, k = c.storageKey)
      (s.openConversation blake3 peer) := by
  have hget : ∀ cf k, Performs (fun o => ∀ k v, o = .put .chains k v → ∃ c : ConversationId, k = c.storageKey)
      (getRaw cf k) := by
    intro cf k
    refine (Performs.call fun _ _ h => ?_).bind fun _ => .ret _
    cases h
  unfold DmService.openConversation ContactStore.getContact
  refine (Performs.mapErr ((hget _ _).attempt.bind fun v => ?_) _).bind fun contact => ?_
  · split
    · exact (Performs.ret _).bind fun _ => .ret _
    · exact .ret _
    · exact .ret _
  · split
    · exact .ret _
    · refine ((hget _ _).mapErr _).bind fun v => ?_
      split
      · exact .ret _
      · refine (Performs.mapErr ((Performs.call fun k v h => ?_).bind fun _ => .ret _) _).bind fun _ => .ret _
        cases h
        exact ⟨_, rfl⟩

variable {blake3 s peer} {db : ZeroDb} {faults : Faults}

/-! What it returns, and what is left of the failures to come. -/

theorem run_open_lookup_fails {f : Fault} (h₀ : faults.nth 0 = some f) :
    (s.openConversation blake3 peer).run handleFaulty (db, faults) =
      (.error (.contact (.storage (.rocks f.error))), (db, faults.drop 1)) := by
  unfold DmService.openConversation ContactStore.getContact
  simp only [Prog.run_bind, Prog.run_mapErr, Prog.run_attempt, run_getRaw_some h₀]
  rfl

theorem run_open_stranger (h₀ : faults.nth 0 = none)
    (hnone : db.get .contacts (ContactStore.makeKey s.contacts.owner peer) = none) :
    (s.openConversation blake3 peer).run handleFaulty (db, faults) =
      (.error (.contactNotFound peer), (db, faults.drop 1)) := by
  unfold DmService.openConversation ContactStore.getContact
  simp only [Prog.run_bind, Prog.run_mapErr, Prog.run_attempt, run_getRaw_none h₀, hnone]
  rfl

variable {b : Bytes} (h₀ : faults.nth 0 = none)
  (hb : db.get .contacts (ContactStore.makeKey s.contacts.owner peer) = some b)
include h₀ hb

theorem run_open_unreadable {e : Postcard.Error} (he : Postcard.fromBytes Contact.codec b = .error e) :
    (s.openConversation blake3 peer).run handleFaulty (db, faults) =
      (.error (.contact (.codec e)), (db, faults.drop 1)) := by
  unfold DmService.openConversation ContactStore.getContact
  simp only [Prog.run_bind, Prog.run_mapErr, Prog.run_attempt, run_getRaw_none h₀, hb, Prog.run_lift, he]
  rfl

variable {c : Contact} (hc : Postcard.fromBytes Contact.codec b = .ok c)
include hc

theorem run_open_contact :
    (s.openConversation blake3 peer).run handleFaulty (db, faults) =
      ((do match ← (getRaw .chains (ConversationId.derive blake3 s.identity peer).storageKey).mapErr DmError.storage with
            | some bytes => Prog.lift (decodeConversation bytes)
            | none =>
              let conv : Conversation := ⟨ConversationId.derive blake3 s.identity peer, peer, none⟩
              (putRaw .chains (ConversationId.derive blake3 s.identity peer).storageKey
                (Conversation.codec.enc conv)).mapErr DmError.storage
              pure conv) : DbProg DmError Conversation).run handleFaulty (db, faults.drop 1) := by
  unfold DmService.openConversation
  refine Prog.run_bind_ok _ (a := some c) ?_
  unfold ContactStore.getContact
  simp only [Prog.run_bind, Prog.run_mapErr, Prog.run_attempt, run_getRaw_none h₀, hb, Prog.run_lift, hc]
  rfl

theorem run_open_record_fails {f : Fault} (h₁ : faults.nth 1 = some f) :
    (s.openConversation blake3 peer).run handleFaulty (db, faults) =
      (.error (.storage (.rocks f.error)), (db, faults.drop 2)) := by
  rw [← Faults.nth_drop_zero] at h₁
  rw [run_open_contact h₀ hb hc, Prog.run_bind, Prog.run_mapErr, run_getRaw_some h₁, List.drop_drop]
  rfl

theorem run_open_record (h₁ : faults.nth 1 = none) {v : Bytes}
    (hv : db.get .chains (ConversationId.derive blake3 s.identity peer).storageKey = some v) :
    (s.openConversation blake3 peer).run handleFaulty (db, faults) =
      (decodeConversation v, (db, faults.drop 2)) := by
  rw [← Faults.nth_drop_zero] at h₁
  rw [run_open_contact h₀ hb hc, Prog.run_bind, Prog.run_mapErr, run_getRaw_none h₁, List.drop_drop, hv]
  rfl

theorem run_open_new (h₁ : faults.nth 1 = none)
    (hv : db.get .chains (ConversationId.derive blake3 s.identity peer).storageKey = none) :
    ((s.openConversation blake3 peer).run handleFaulty (db, faults)).1 =
      match faults.nth 2 with
      | some f => .error (.storage (.rocks f.error))
      | none => .ok ⟨ConversationId.derive blake3 s.identity peer, peer, none⟩ := by
  rw [← Faults.nth_drop_zero] at h₁
  rw [run_open_contact h₀ hb hc, Prog.run_bind, Prog.run_mapErr, run_getRaw_none h₁, List.drop_drop, hv]
  simp only [Except.mapError, Prog.run_bind, Prog.run_mapErr]
  cases h₂ : faults.nth 2 with
  | some f =>
    rw [← Faults.nth_drop_zero] at h₂
    rw [run_putRaw_some h₂]
  | none =>
    rw [← Faults.nth_drop_zero] at h₂
    rw [run_putRaw_none h₂]
    rfl

end Open

/-- The failure is one `process_inbound_dm` goes on after, though the sender
is not a stranger. -/
def DmError.Swallowed (peer : IdentityId) (e : DmError) : Prop := (∀ e', e ≠ .storage e') ∧ e ≠ .contactNotFound peer

theorem swallowed_contact (peer : IdentityId) (e : ContactError) : (DmError.contact e).Swallowed peer := by
  simp [DmError.Swallowed]

theorem swallowed_codec (peer : IdentityId) (e : Postcard.Error ⊕ RocksError) : (DmError.codec e).Swallowed peer := by
  simp [DmError.Swallowed]

/-- A failure to open the conversation is swallowed, and the write of the
message that comes next does not fail. -/
def GoesOn (blake3 : Bytes → Arr 32) (s : DmService) (peer : IdentityId) (st : ZeroDb × Faults) : Prop :=
  (∃ e, ((s.openConversation blake3 peer).run handleFaulty st).1 = .error e ∧ e.Swallowed peer) ∧
    ((s.openConversation blake3 peer).run handleFaulty st).2.2.nth 0 = none

section
variable {blake3 : Bytes → Arr 32} {s : DmService} {peer : IdentityId} {db : ZeroDb} {faults : Faults}

theorem goesOn_swallowed {e : DmError} {n : Nat}
    (hrun : (s.openConversation blake3 peer).run handleFaulty (db, faults) = (.error e, (db, faults.drop n)))
    (he : e.Swallowed peer) : GoesOn blake3 s peer (db, faults) ↔ faults.nth n = none := by
  rw [GoesOn, hrun, Faults.nth_drop]
  exact ⟨fun h => h.2, fun h => ⟨⟨e, rfl, he⟩, h⟩⟩

theorem not_goesOn (h : ∀ e, ((s.openConversation blake3 peer).run handleFaulty (db, faults)).1 = .error e →
    ¬ e.Swallowed peer) : ¬ GoesOn blake3 s peer (db, faults) := by
  rintro ⟨⟨e, he, hs⟩, -⟩
  exact h e he hs

theorem goesOn_iff : GoesOn blake3 s peer (db, faults) ↔ ¬ Surfaces blake3 s peer db faults := by
  cases h₀ : faults.nth 0 with
  | some f =>
    rw [goesOn_swallowed (run_open_lookup_fails h₀) (swallowed_contact _ _)]
    simp [Surfaces, h₀]
  | none =>
  cases hb : db.get .contacts (ContactStore.makeKey s.contacts.owner peer) with
  | none =>
    refine iff_of_false (not_goesOn fun e he => ?_) (not_not.mpr ?_)
    · rw [run_open_stranger h₀ hb] at he
      cases he
      exact fun h => h.2 rfl
    · simp [Surfaces, h₀, hb, ContactReadable]
  | some b =>
  cases hc : Postcard.fromBytes Contact.codec b with
  | error e =>
    rw [goesOn_swallowed (run_open_unreadable h₀ hb hc) (swallowed_contact _ _)]
    refine ⟨fun h₁ hs => ?_, fun hs => ?_⟩
    · obtain ⟨c, hc'⟩ := (hs.1 h₁).2 b hb
      cases hc.symm.trans hc'
    · by_contra h₁
      exact hs ⟨fun h => absurd h h₁, fun _ _ h => absurd h h₁⟩
  | ok c =>
  have hcontact : ContactReadable db s peer := by
    intro b' hb'
    rw [hb] at hb'
    cases hb'
    exact ⟨c, hc⟩
  cases h₁ : faults.nth 1 with
  | some f =>
    refine iff_of_false (not_goesOn fun e he => ?_) (not_not.mpr ?_)
    · rw [run_open_record_fails h₀ hb hc h₁] at he
      cases he
      exact fun h => h.1 _ rfl
    · simp [Surfaces, h₁]
  | none =>
  cases hv : db.get .chains (ConversationId.derive blake3 s.identity peer).storageKey with
  | none =>
    refine iff_of_false (not_goesOn fun e he => ?_) (not_not.mpr ?_)
    · rw [run_open_new h₀ hb hc h₁ hv] at he
      split at he
      · cases he
        exact fun h => h.1 _ rfl
      · cases he
    · simp [Surfaces, h₀, hcontact, RecordReadable, hv]
  | some v =>
  have hrun := run_open_record h₀ hb hc h₁ hv
  cases hconv : Postcard.fromBytes Conversation.codec v with
  | error e =>
    have hdec : decodeConversation v = .error (.codec (.inl e)) := by rw [decodeConversation, hconv]; rfl
    rw [hdec] at hrun
    rw [goesOn_swallowed hrun (swallowed_codec _ _)]
    simp [Surfaces, h₀, h₁, hb, hcontact, RecordReadable, hv, hconv]
  | ok conv =>
    have hdec : decodeConversation v = .ok conv := by rw [decodeConversation, hconv]; rfl
    refine iff_of_false (not_goesOn fun e he => ?_) (not_not.mpr ?_)
    · rw [hrun, hdec] at he
      cases he
    · simp [Surfaces, h₀, hcontact, RecordReadable, hv, hconv]

/-- A sender who is not found is one whose lookup did not fail. -/
theorem open_notFound_not_fails
    (h : ((s.openConversation blake3 peer).run handleFaulty (db, faults)).1 = .error (.contactNotFound peer)) :
    ¬ Fails (s.openConversation blake3 peer) (db, faults) := by
  cases h₀ : faults.nth 0 with
  | some f =>
    rw [run_open_lookup_fails h₀] at h
    cases h
  | none =>
  cases hb : db.get .contacts (ContactStore.makeKey s.contacts.owner peer) with
  | none =>
    have hone : performed (s.openConversation blake3 peer) (db, faults) =
        [(.get .contacts (ContactStore.makeKey s.contacts.owner peer), faults.nth 0)] := by
      unfold DmService.openConversation ContactStore.getContact
      simp only [performed_bind, performed_mapErr, performed_attempt, Prog.run_bind, Prog.run_mapErr, Prog.run_attempt,
        run_getRaw_none h₀, hb]
      rfl
    rintro ⟨o, f, ho⟩
    rw [hone, h₀] at ho
    cases List.mem_singleton.mp ho
  | some b =>
  exfalso
  cases hc : Postcard.fromBytes Contact.codec b with
  | error e =>
    rw [run_open_unreadable h₀ hb hc] at h
    cases h
  | ok c =>
  cases h₁ : faults.nth 1 with
  | some f =>
    rw [run_open_record_fails h₀ hb hc h₁] at h
    cases h
  | none =>
  cases hv : db.get .chains (ConversationId.derive blake3 s.identity peer).storageKey with
  | none =>
    rw [run_open_new h₀ hb hc h₁ hv] at h
    split at h <;> cases h
  | some v =>
    rw [run_open_record h₀ hb hc h₁ hv, decodeConversation] at h
    cases hconv : Postcard.fromBytes Conversation.codec v <;> rw [hconv] at h <;> cases h

end

/-! ## The rest -/

section Accept
variable (r : DmReceiver) (p : DmSectorPayload) (nowMs receiptMs : UInt64) (sectorId : SectorId) (enqueuedMs : UInt64)

theorem strict_accept : Strict (r.accept p nowMs receiptMs sectorId enqueuedMs) :=
  ((strict_putRaw _ _ _).mapErr _).bind fun _ =>
    (((Outbox.strict_enqueue _ _).mapErr _).bind fun _ => .ret _).bind fun _ => .ret _

/-- The message is written at once, and not again. -/
theorem write_mem_accept {s : ZeroDb × Faults} {f : Option Fault} :
    (p.write nowMs, f) ∈ performed (r.accept p nowMs receiptMs sectorId enqueuedMs) s ↔ s.2.nth 0 = f := by
  have hqueue : Performs (fun o => ∀ k v, o ≠ .put .chains k v) (enqueueReceipt Outbox.new
      (buildDeliveredReceipt p.messageId p.conversationId r.identity r.machineId receiptMs) sectorId enqueuedMs) := by
    unfold enqueueReceipt Outbox.enqueue
    refine (Performs.mapErr ((Performs.bind (Performs.call ?_) fun _ => .ret _).bind fun queued => ?_) _).bind
      fun _ => .ret _
    · intro k v h
      cases h
    · split
      · exact .ret _
      · refine ((Performs.call ?_).bind fun _ => .ret _).bind fun n => ?_
        · intro k v h
          cases h
        · split
          · exact .ret _
          · refine (Performs.call ?_).bind fun _ => .ret _
            intro k v h
            cases h
  have hstore : performed (storeMessage (p.toMessage nowMs)) s = [(p.write nowMs, s.2.nth 0)] := by
    rw [storeMessage, performed_mapErr]
    rfl
  unfold DmReceiver.accept
  rw [performed_bind, hstore, List.mem_append, List.mem_singleton]
  constructor
  · rintro (h | h)
    · exact (Prod.mk.inj h).2.symm
    · split at h
      · exact absurd rfl ((hqueue.bind fun _ => .ret _) _ _ h _ _)
      · cases h
  · intro h
    rw [h]
    exact .inl rfl

end Accept

/-! ## The whole -/

section
variable {blake3 : Bytes → Arr 32} {r : DmReceiver} {bytes : Bytes} (nowMs receiptMs : UInt64) (sectorId : SectorId)
  (enqueuedMs : UInt64)

theorem inbound_storage {p : DmSectorPayload} (hd : decodeDm bytes = .ok p) {s : ZeroDb × Faults} {e : StorageError}
    (h : ((r.service.openConversation blake3 p.senderIdentity).run handleFaulty s).1 = .error (.storage e)) :
    ((r.processInboundDm blake3 bytes nowMs receiptMs sectorId enqueuedMs).run handleFaulty s).1 =
        .error (.storage e) ∧
      performed (r.processInboundDm blake3 bytes nowMs receiptMs sectorId enqueuedMs) s =
        performed (r.service.openConversation blake3 p.senderIdentity) s := by
  unfold DmReceiver.processInboundDm
  rw [hd]
  simp only [Prog.run_bind, performed_bind, Prog.run_lift, Prog.run_attempt, performed_attempt, h, Prog.run_fail]
  exact ⟨trivial, List.append_nil _⟩

theorem inbound_accept {p : DmSectorPayload} (hd : decodeDm bytes = .ok p) {s : ZeroDb × Faults}
    (h : ∀ e, ((r.service.openConversation blake3 p.senderIdentity).run handleFaulty s).1 ≠ .error (.storage e)) :
    (r.processInboundDm blake3 bytes nowMs receiptMs sectorId enqueuedMs).run handleFaulty s =
        (r.accept p nowMs receiptMs sectorId enqueuedMs).run handleFaulty
          ((r.service.openConversation blake3 p.senderIdentity).run handleFaulty s).2 ∧
      performed (r.processInboundDm blake3 bytes nowMs receiptMs sectorId enqueuedMs) s =
        performed (r.service.openConversation blake3 p.senderIdentity) s ++
          performed (r.accept p nowMs receiptMs sectorId enqueuedMs)
            ((r.service.openConversation blake3 p.senderIdentity).run handleFaulty s).2 := by
  unfold DmReceiver.processInboundDm
  rw [hd]
  rw [Prog.run_bind, performed_bind, Prog.run_lift]
  simp only
  rw [Prog.run_bind, performed_bind, Prog.run_attempt, performed_attempt]
  simp only
  exact ⟨rfl, rfl⟩

/-- **When failures are reported.** For every database, every payload and every
pattern of RocksDB failures: exactly if, the bytes being a payload at all,
the lookup of its sender and the record of the conversation with them do not
fail in a way that passes for a missing contact. -/
theorem propagates_iff (db : ZeroDb) (faults : Faults) :
    Propagates blake3 r bytes nowMs receiptMs sectorId enqueuedMs (db, faults) ↔
      ∀ p, decodeDm bytes = .ok p → Surfaces blake3 r.service p.senderIdentity db faults := by
  cases hd : decodeDm bytes with
  | error e =>
    refine iff_of_true ⟨fun _ => ⟨e, ?_⟩, fun p _ hp => absurd (hd.symm.trans hp) (by simp)⟩ fun p hp => by cases hp
    unfold DmReceiver.processInboundDm
    rw [hd, Prog.run_bind, Prog.run_lift]
  | ok p =>
  have hsurfaces : (∀ p', Except.ok p = Except.ok (ε := DmError) p' →
      Surfaces blake3 r.service p'.senderIdentity db faults) ↔
      ¬ GoesOn blake3 r.service p.senderIdentity (db, faults) := by
    rw [goesOn_iff, not_not]
    exact ⟨fun h => h p rfl, fun h p' hp => by cases hp; exact h⟩
  -- opening a conversation writes no message
  have hwrite : (p.write nowMs, none) ∉ performed (r.service.openConversation blake3 p.senderIdentity) (db, faults) := by
    intro h
    obtain ⟨c, hc⟩ := performs_openConversation blake3 r.service p.senderIdentity _ _ h _ _ rfl
    exact storageKey_ne c _ _ hc.symm
  rw [hsurfaces]
  constructor
  · rintro ⟨-, hopens⟩ ⟨⟨e, he, hs⟩, hnext⟩
    have hne : ∀ e', ((r.service.openConversation blake3 p.senderIdentity).run handleFaulty (db, faults)).1 ≠
        .error (.storage e') := by
      intro e' he'
      rw [he] at he'
      exact hs.1 e' (Except.error.inj he')
    refine hopens p e hd he hs.2 ?_
    rw [(inbound_accept nowMs receiptMs sectorId enqueuedMs hd hne).2]
    exact List.mem_append_right _ ((write_mem_accept r p nowMs receiptMs sectorId enqueuedMs).mpr hnext)
  · intro hgo
    by_cases hst : ∃ e', ((r.service.openConversation blake3 p.senderIdentity).run handleFaulty (db, faults)).1 =
        .error (.storage e')
    · obtain ⟨e', he'⟩ := hst
      obtain ⟨hres, hperf⟩ := inbound_storage nowMs receiptMs sectorId enqueuedMs hd he'
      refine ⟨fun _ => ⟨_, hres⟩, fun p' e hp _ _ => ?_⟩
      cases hd.symm.trans hp
      rw [hperf]
      exact hwrite
    · have hne := not_exists.mp hst
      obtain ⟨hrun, hperf⟩ := inbound_accept nowMs receiptMs sectorId enqueuedMs hd hne
      refine ⟨fun ⟨o, f, ho⟩ => ?_, fun p' e hp he hnot hmem => ?_⟩
      · rw [hrun]
        rw [hperf] at ho
        rcases List.mem_append.mp ho with ho | ho
        · obtain ⟨e, he⟩ := strict_openConversation _ _ _ _ ⟨o, f, ho⟩
          cases hnext : ((r.service.openConversation blake3 p.senderIdentity).run handleFaulty (db, faults)).2.2.nth 0 with
          | some f' =>
            -- then the write of the message fails
            exact strict_accept _ _ _ _ _ _ _ ⟨_, f', (write_mem_accept _ _ _ _ _ _).mpr hnext⟩
          | none =>
            have hfound : e = .contactNotFound p.senderIdentity := by
              by_contra hnot
              exact hgo ⟨⟨e, he, fun e' heq => hne e' (heq ▸ he), hnot⟩, hnext⟩
            rw [hfound] at he
            exact absurd ⟨o, f, ho⟩ (open_notFound_not_fails he)
        · exact strict_accept _ _ _ _ _ _ _ ⟨o, f, ho⟩
      · cases hd.symm.trans hp
        rw [hperf] at hmem
        rcases List.mem_append.mp hmem with hmem | hmem
        · exact hwrite hmem
        · have hnext := (write_mem_accept _ _ _ _ _ _).mp hmem
          exact hgo ⟨⟨e, he, fun e' heq => hne e' (heq ▸ he), hnot⟩, hnext⟩

/-- The lookup of the contact fails, the message is stored, and the call
returns `Ok`. -/
theorem failed_lookup_swallowed :
    let hello : DmSectorPayload := ⟨⟨Arr.fill 16 7⟩, ⟨Arr.fill 32 9⟩, ⟨Arr.fill 16 2⟩, ⟨Arr.fill 16 3⟩, Str.empty, 5⟩
    let me : DmReceiver := ⟨⟨⟨Arr.fill 16 1⟩, ⟨Arr.fill 16 1⟩, ⟨⟨Arr.fill 16 1⟩⟩⟩, ⟨Arr.fill 16 1⟩, ⟨Arr.fill 16 1⟩⟩
    let call := me.processInboundDm (fun _ => Arr.fill 32 0) (DmSectorPayload.codec.enc hello) 8 8 ⟨Arr.fill 16 5⟩ 8
    let s : ZeroDb × Faults := (ZeroDb.empty, [some ⟨⟨"IO error"⟩, 0⟩])
    ¬ Propagates (fun _ => Arr.fill 32 0) me (DmSectorPayload.codec.enc hello) 8 8 ⟨Arr.fill 16 5⟩ 8 s ∧
      (call.run ZeroDb.handleFaulty s).1 = .ok hello.messageId ∧
      messageAt (call.run ZeroDb.handleFaulty s).2.1 hello.conversationId hello.messageId = some (hello.toMessage 8) := by
  intro hello me call s
  have hok : (call.run ZeroDb.handleFaulty s).1 = .ok hello.messageId := by decide +kernel
  refine ⟨fun h => ?_, hok, by decide +kernel⟩
  obtain ⟨e, he⟩ := h.fails ⟨_, _, List.mem_cons_self⟩
  cases hok.symm.trans he

end

end ZeroSdk.Dm
