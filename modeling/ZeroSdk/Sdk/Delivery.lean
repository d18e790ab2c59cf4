/-
No reachable state of the two-party protocol is a dead end. A message whose
sector is still queued or was ever published can be brought to its end from
wherever the run has got to (`delivery_completes`): `A` publishes what is
due, `B` makes room in its outbox, the sector comes in, `B` publishes its
receipt, and the receipt comes back. Each step does its part because both
stores are sound (`World.Sound`): no entry of an outbox is unreadable, so a
scan of it does not fail.
-/
import ZeroSdk.Dm.Agreement
import ZeroSdk.Sdk.Soundness
import ZeroSdk.Storage.RetryQueue

namespace ZeroSdk
open Prog
open ZeroDb (handleAt)

namespace Dm
open DmService

/-- Both stores are sound. -/
structure World.Sound (w : World) : Prop where
  a : Contents Stored w.a
  b : Contents Stored w.b

theorem OutboxAction.run_publish_fst (db : ZeroDb) (now : UInt64) : (OutboxAction.run db (.publish now)).1 = db := by
  simp only [OutboxAction.run]
  split
  · rfl
  · rfl

theorem OutboxAction.sound {db : ZeroDb} (h : Contents Stored db) (act : OutboxAction) :
    Contents Stored (act.run db).1 := by
  cases act with
  | publish nowMs =>
    rw [OutboxAction.run_publish_fst]
    exact h
  | markAttempted id nextAttemptMs => exact ((Outbox.safe_op (.markAttempted id nextAttemptMs)).run none h).1
  | remove id => exact ((Outbox.safe_op (.remove id)).run none h).1

/-- The steps of a delivery. Nothing new is sent or read in them: what is
queued is published, `B` makes room in its outbox, and what was published
comes in. -/
def Action.Delivers : Action → Prop
  | .outboxA (.publish _) | .outboxB (.publish _) | .outboxB (.remove _) | .deliverDm _ _ _ _ _ | .deliverReceipt _ _ => True
  | _ => False

/-- Deliveries that lead from one point of a run to another. -/
def World.Leads (blake3 : Bytes → Arr 32) (sender : DmService) (recipient : DmReceiver) (w w' : World) : Prop :=
  ∃ more, (∀ act ∈ more, act.Delivers) ∧ w.run blake3 sender recipient more = w'

section Protocol
variable {blake3 : Bytes → Arr 32} {sender : DmService} {recipient : DmReceiver}

theorem World.Leads.trans {w w₁ w₂ : World} (h : w.Leads blake3 sender recipient w₁)
    (h' : w₁.Leads blake3 sender recipient w₂) : w.Leads blake3 sender recipient w₂ := by
  obtain ⟨more, hmore, rfl⟩ := h
  obtain ⟨more', hmore', rfl⟩ := h'
  refine ⟨more ++ more', fun act hact => ?_, List.foldl_append ..⟩
  exact (List.mem_append.mp hact).elim (hmore act) (hmore' act)

theorem World.leads_step (w : World) (act : Action) (h : act.Delivers) :
    w.Leads blake3 sender recipient (w.step blake3 sender recipient act) := by
  refine ⟨[act], fun act' hact => ?_, rfl⟩
  rw [List.mem_singleton.mp hact]
  exact h

variable (blake3 sender recipient) {w : World}

theorem World.Sound.step (h : w.Sound) (act : Action) : (w.step blake3 sender recipient act).Sound := by
  cases act with
  | openA peer => exact ⟨((sender.safe_openConversation blake3 peer).run none h.a).1, h.b⟩
  | sendText c text nowMs id sectorId => exact ⟨((sender.safe_sendText c text nowMs id sectorId).run none h.a).1, h.b⟩
  | acknowledgeSent c id nowMs => exact ⟨((safe_updateStatus c id .sent nowMs).run none h.a).1, h.b⟩
  | outboxA act => exact ⟨act.sound h.a, h.b⟩
  | deliverReceipt bytes nowMs =>
    simp only [World.step]
    split
    · unfold handleReceipt
      cases decodeReceipt bytes with
      | error e => exact h
      | ok r => exact ⟨((safe_updateStatus r.conversationId r.messageId r.status nowMs).run none h.a).1, h.b⟩
    · exact h
  | openB peer => exact ⟨h.a, ((recipient.service.safe_openConversation blake3 peer).run none h.b).1⟩
  | deliverDm bytes nowMs receiptMs sectorId enqueuedMs =>
    simp only [World.step]
    split
    · exact ⟨h.a, ((recipient.safe_processInboundDm blake3 bytes nowMs receiptMs sectorId enqueuedMs).run none h.b).1⟩
    · exact h
  | markRead c id updatedMs nowMs =>
    have hb := ((recipient.service.safe_markRead c id updatedMs nowMs).run none h.b).1
    simp only [World.step]
    split
    · exact ⟨h.a, hb⟩
    · exact ⟨h.a, hb⟩
  | markReadAndEmit c id outbox updatedMs nowMs sectorId enqueuedMs =>
    exact ⟨h.a, ((recipient.service.safe_markReadAndEmit c id outbox updatedMs nowMs sectorId enqueuedMs).run none h.b).1⟩
  | outboxB act => exact ⟨h.a, act.sound h.b⟩

theorem World.Sound.run (h : w.Sound) (acts : List Action) : (w.run blake3 sender recipient acts).Sound := by
  induction acts generalizing w with
  | nil => exact h
  | cons act acts ih => exact ih (h.step blake3 sender recipient act)

/-! ## The steps of a delivery -/

/-- The sector is in flight, or in `A`'s outbox. -/
def World.OnItsWay (w : World) (bytes : Bytes) : Prop :=
  bytes ∈ w.dms ∨ ∃ k entry, w.a.get .outbox k = some (OutboxEntry.codec.enc entry) ∧ entry.payload.val = bytes

/-- What is queued is published once it is due. -/
theorem OutboxAction.publish_queued {db : ZeroDb} (h : Contents Stored db) {k : Bytes} {entry : OutboxEntry}
    (hk : db.get .outbox k = some (OutboxEntry.codec.enc entry)) :
    entry.payload.val ∈ (OutboxAction.run db (.publish entry.nextAttemptMs)).2 := by
  obtain ⟨q, hq⟩ := Outbox.Stores.of_contents h
  obtain ⟨due, hrun, hmem, -⟩ := hq.due entry.nextAttemptMs
  have hqueued : q entry.sectorId = some entry := by
    obtain ⟨entry', rfl, henc⟩ := h .outbox k _ hk
    obtain rfl := Postcard.enc_injective _ henc
    exact (hq.queued_iff entry).mpr hk
  simp only [OutboxAction.run, hrun]
  exact List.mem_map.mpr ⟨entry, (hmem entry).mpr ⟨hqueued, UInt64.le_refl _⟩, rfl⟩

/-- `A` publishes the sector, if it has not yet. -/
theorem World.OnItsWay.published (h : w.Sound) {bytes : Bytes} (hway : w.OnItsWay bytes) :
    ∃ w', w.Leads blake3 sender recipient w' ∧ w'.Sound ∧ w'.a = w.a ∧ bytes ∈ w'.dms := by
  have hpublish : ∀ now, bytes ∈ w.dms ++ (OutboxAction.run w.a (.publish now)).2 →
      ∃ w', w.Leads blake3 sender recipient w' ∧ w'.Sound ∧ w'.a = w.a ∧ bytes ∈ w'.dms := fun now hin =>
    ⟨_, w.leads_step (.outboxA (.publish now)) trivial, h.step blake3 sender recipient _,
      OutboxAction.run_publish_fst _ _, hin⟩
  rcases hway with hin | ⟨k, entry, hk, rfl⟩
  · exact hpublish 0 (List.mem_append_left _ hin)
  · exact hpublish entry.nextAttemptMs (List.mem_append_right _ (OutboxAction.publish_queued h.a hk))

/-- `B` drops everything from its outbox. -/
def clearing (ids : List SectorId) : List Action := ids.map fun id => .outboxB (.remove id)

theorem delivers_clearing {ids : List SectorId} : ∀ act ∈ clearing ids, act.Delivers := by
  intro act hact
  obtain ⟨id, -, rfl⟩ := List.mem_map.mp hact
  trivial

theorem run_clearing (w : World) (ids : List SectorId) :
    (w.run blake3 sender recipient (clearing ids)).a = w.a ∧ (w.run blake3 sender recipient (clearing ids)).dms = w.dms ∧
      ∀ k, (w.run blake3 sender recipient (clearing ids)).b.get .outbox k =
        if k ∈ ids.map (·.bytes.val) then none else w.b.get .outbox k := by
  induction ids generalizing w with
  | nil => exact ⟨rfl, rfl, fun k => (if_neg List.not_mem_nil).symm⟩
  | cons id ids ih =>
    obtain ⟨ha, hdms, hget⟩ := ih (w.step blake3 sender recipient (.outboxB (.remove id)))
    refine ⟨ha, hdms, fun k => (hget k).trans ?_⟩
    change (if _ then none else (w.b.delete .outbox id.bytes.val).get .outbox k) = _
    rw [ZeroDb.get_delete, List.map_cons]
    by_cases hk : k = id.bytes.val
    · simp [hk]
    · simp [hk]

theorem World.Sound.cleared (h : w.Sound) :
    ∃ w', w.Leads blake3 sender recipient w' ∧ w'.Sound ∧ w'.a = w.a ∧ w'.dms = w.dms ∧
      ∀ k, w'.b.get .outbox k = none := by
  obtain ⟨q, hq⟩ := Outbox.Stores.of_contents h.b
  obtain ⟨l, hl, -, -⟩ := hq.lists
  obtain ⟨ha, hdms, hget⟩ := run_clearing blake3 sender recipient w
    (l.map (·.sectorId))
  refine ⟨_, ⟨_, delivers_clearing, rfl⟩, h.run blake3 sender recipient (clearing (l.map (·.sectorId))), ha, hdms, fun k => (hget k).trans ?_⟩
  split
  · rfl
  · next hk =>
    cases hv : w.b.get .outbox k with
    | none => rfl
    | some v =>
      have hmem : (k, v) ∈ (w.b.cf .outbox).entries := OrdMap.mem_entries.mpr hv
      rw [hl] at hmem
      obtain ⟨e, he, heq⟩ := List.mem_map.mp hmem
      cases heq
      exact absurd (List.mem_map.mpr ⟨e.sectorId, List.mem_map.mpr ⟨e, he, rfl⟩, rfl⟩) hk

theorem inbound_queues {db : ZeroDb} (hroom : ∀ k, db.get .outbox k = none) (r : DmReceiver) (p : DmSectorPayload)
    (now : UInt64) (sectorId : SectorId) :
    (db.run (r.processInboundDm blake3 p.toAllocvec.val now now sectorId now)).2.get .outbox sectorId.bytes.val =
      some (OutboxEntry.codec.enc (r.receiptEntry p now sectorId now)) := by
  -- neither the conversation nor the message goes to the outbox
  have hnone : Outbox.Queued (fun _ => False) db := fun k v hv => by rw [hroom k] at hv; cases hv
  have hstored := queued_storeMessage (queued_openConversation hnone blake3 r.service p.senderIdentity) (p.toMessage now)
  rw [run_inbound_snd blake3 db r (decodeDm_toAllocvec p), Outbox.run_enqueue]
  generalize (ZeroDb.run _ (storeMessage (p.toMessage now))).2 = db' at hstored
  have hempty : ∀ k, db'.get .outbox k = none := by
    intro k
    cases hv : db'.get .outbox k with
    | none => rfl
    | some v =>
      obtain ⟨e, -, hfalse⟩ := hstored k v hv
      exact hfalse.elim
  have hentries : (db'.cf .outbox).entries = [] := by
    rw [List.eq_nil_iff_forall_not_mem]
    rintro ⟨k, v⟩ hkv
    have hv : db'.get .outbox k = some v := OrdMap.mem_entries.mp hkv
    rw [hempty k] at hv
    cases hv
  rw [hempty, hentries, if_neg (by simp), if_neg (by decide)]
  exact ZeroDb.get_put_self _ _ _ _

theorem World.Sound.acknowledged (h : w.Sound) {p : DmSectorPayload} (hin : p.toAllocvec.val ∈ w.dms)
    (hroom : ∀ k, w.b.get .outbox k = none) :
    ∃ w', w.Leads blake3 sender recipient w' ∧ w'.a = w.a ∧
      (∃ m, messageAt w'.b p.conversationId p.messageId = some m ∧ m.IsOf p) ∧
      (buildDeliveredReceipt p.messageId p.conversationId recipient.identity recipient.machineId 0).toAllocvec.val ∈
        w'.receipts := by
  let sectorId : SectorId := ⟨Arr.fill 16 0⟩
  let deliver : Action := .deliverDm p.toAllocvec.val 0 0 sectorId 0
  have hdelivered : w.step blake3 sender recipient deliver =
      { w with b := (w.b.run (recipient.processInboundDm blake3 p.toAllocvec.val 0 0 sectorId 0)).2 } := if_pos hin
  have hsound := h.step blake3 sender recipient deliver
  have hleads : w.Leads blake3 sender recipient (w.step blake3 sender recipient deliver) :=
    w.leads_step deliver trivial
  rw [hdelivered] at hsound hleads
  have hmessage := (update_inbound blake3 w.b recipient (decodeDm_toAllocvec p) 0 0 sectorId 0).written
  have hpublished := OutboxAction.publish_queued hsound.b (inbound_queues blake3 hroom recipient p 0 sectorId)
  refine ⟨_, hleads.trans (World.leads_step _ (.outboxB (.publish 0)) trivial), rfl, ⟨p.toMessage 0, ?_, rfl⟩,
    List.mem_append_right _ hpublished⟩
  exact (congrArg (fun db => messageAt db p.conversationId p.messageId) (OutboxAction.run_publish_fst _ _)).trans hmessage

theorem World.Has.raised {p : DmSectorPayload} (h : w.Has p) (hkeyed : WellKeyed w.a) {who : IdentityId}
    {machine : MachineId} {ms : UInt64}
    (hin : (buildDeliveredReceipt p.messageId p.conversationId who machine ms).toAllocvec.val ∈ w.receipts) :
    ∃ w', w.Leads blake3 sender recipient w' ∧ w'.b = w.b ∧
      ∃ m, messageAt w'.a p.conversationId p.messageId = some m ∧ m.IsOf p ∧ .delivered ≤ m.status := by
  let r := buildDeliveredReceipt p.messageId p.conversationId who machine ms
  have hstep : w.step blake3 sender recipient (.deliverReceipt r.toAllocvec.val 0) =
      { w with a := (w.a.run (DmService.updateStatus p.conversationId p.messageId .delivered 0)).2 } := by
    refine (if_pos hin).trans ?_
    unfold handleReceipt
    rw [decodeReceipt_toAllocvec]
    rfl
  refine ⟨_, World.leads_step w (.deliverReceipt r.toAllocvec.val 0) trivial, ?_⟩
  rw [hstep]
  refine ⟨rfl, ?_⟩
  obtain ⟨m, hm, hof⟩ := h
  rcases update_updateStatus w.a p.conversationId p.messageId .delivered 0 with ⟨e, hrun, hlow⟩ | ⟨m', hm', -, hrun⟩
  · rw [hrun]
    exact ⟨m, hm, hof, not_lt.mp (hlow m hm)⟩
  · rw [hm] at hm'
    cases hm'
    obtain ⟨hconv, hmid⟩ := hkeyed.own hm
    have hwritten := (update_storeMessage w.a { m with status := .delivered, statusUpdatedAtMs := 0 }).written
    rw [hrun]
    refine ⟨_, ?_, hof.withStatus .delivered 0, le_rfl⟩
    rw [← hconv, ← hmid]
    exact hwritten

/-- **Delivery can always be completed.** From whatever point a run has got
to, if the sector of a message is in flight or still queued at `A`, there are
deliveries after which `B` has the message and `A` has it as `Delivered` or
`Read`. -/
theorem delivery_completes (hw : w.Fresh) (hsound : w.Sound) {acts : List Action} (hfresh : FreshSends sender acts)
    {p : DmSectorPayload} (hway : (w.run blake3 sender recipient acts).OnItsWay p.toAllocvec.val) :
    ∃ more m m', (∀ act ∈ more, act.Delivers) ∧
      messageAt (w.run blake3 sender recipient (acts ++ more)).a p.conversationId p.messageId = some m ∧
      m.IsOf p ∧ .delivered ≤ m.status ∧
      messageAt (w.run blake3 sender recipient (acts ++ more)).b p.conversationId p.messageId = some m' ∧ m'.IsOf p := by
  have hinv := agree_run blake3 recipient hw hfresh
  have hhas : (w.run blake3 sender recipient acts).Has p := by
    rcases hway with hin | ⟨k, entry, hk, hpay⟩
    · exact (hinv.dms _ hin p (decodeDm_toAllocvec p)).2
    · obtain ⟨e, henc, hok⟩ := hinv.queueA k _ hk
      rw [Postcard.enc_injective _ henc] at hpay
      exact (hok p (by rw [hpay, decodeDm_toAllocvec])).2
  obtain ⟨w₁, hleads₁, hs₁, ha₁, hin₁⟩ := hway.published blake3 sender recipient
    (hsound.run blake3 sender recipient acts)
  obtain ⟨w₂, hleads₂, hs₂, ha₂, hdms₂, hroom⟩ := hs₁.cleared blake3 sender recipient
  obtain ⟨w₃, hleads₃, ha₃, ⟨m', hm', hof'⟩, hreceipt⟩ := hs₂.acknowledged blake3 sender recipient
    (hdms₂ ▸ hin₁) hroom
  -- `A`'s store is still the one it was
  have ha : w₃.a = (w.run blake3 sender recipient acts).a := ha₃.trans (ha₂.trans ha₁)
  have hhas₃ : w₃.Has p := by
    unfold World.Has
    rw [ha]
    exact hhas
  obtain ⟨w₄, hleads₄, hb₄, m, hm, hof, hraised⟩ := hhas₃.raised blake3 sender recipient
    (ha ▸ hinv.keyedA) hreceipt
  obtain ⟨more, hdelivers, hmore⟩ := ((hleads₁.trans hleads₂).trans hleads₃).trans hleads₄
  have hrun : w.run blake3 sender recipient (acts ++ more) = w₄ := (List.foldl_append ..).trans hmore
  refine ⟨more, m, m', hdelivers, ?_, hof, hraised, ?_, hof'⟩
  · rw [hrun]
    exact hm
  · rw [hrun, hb₄]
    exact hm'

end Protocol

/-- The exchange of `Provenance`, stopped when the sector is in flight. -/
theorem delivery_completes_exchange :
    let blake3 : Bytes → Arr 32 := fun _ => Arr.fill 32 9
    let w : World := ⟨aliceDb, ZeroDb.empty, [], []⟩
    let p : DmSectorPayload :=
      ⟨⟨Arr.fill 16 7⟩, ⟨Arr.fill 32 9⟩, ⟨Arr.fill 16 1⟩, ⟨Arr.fill 16 1⟩, Str.empty, 10⟩
    ∃ more m m', (∀ act ∈ more, act.Delivers) ∧
      messageAt (w.run blake3 alice bob (exchange.take 3 ++ more)).a p.conversationId p.messageId = some m ∧
      m.IsOf p ∧ .delivered ≤ m.status ∧
      messageAt (w.run blake3 alice bob (exchange.take 3 ++ more)).b p.conversationId p.messageId = some m' ∧ m'.IsOf p := by
  intro blake3 w p
  have hw : w.Fresh := ⟨fun _ => rfl, fun _ => rfl, fun _ => rfl, fun _ => rfl, rfl, rfl⟩
  have hsound : w.Sound := ⟨Contents.empty.put ⟨⟨Arr.fill 16 1⟩, ⟨⟨Arr.fill 16 2⟩, Str.empty, Vec.empty, none, 0⟩, rfl, rfl,
    by decide⟩, Contents.empty⟩
  have hfresh : FreshSends alice (exchange.take 3) := by
    simp [FreshSends, exchange, Action.Sends]
  have hin : p.toAllocvec.val ∈ (w.run blake3 alice bob (exchange.take 3)).dms := by decide +kernel
  exact delivery_completes blake3 alice bob hw hsound hfresh (.inl hin)

end Dm

end ZeroSdk
