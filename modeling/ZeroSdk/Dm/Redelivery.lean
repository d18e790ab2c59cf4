/-
What a failed sector is worth to the receive loop. A sector is marked in the
dedupe cache before it is processed, and the result of `process_inbound_dm`
is dropped: when a write fails, or the outbox is full, the redelivery of the
sector is skipped as a duplicate, and its message or its receipt is missing
for good (`failed_sector_suppressed`).

When `process_inbound_dm` returns `Ok`, its message is stored and its
receipt queued, whatever fails on the way (`acknowledged_of_ok`).
`failed_not_suppressed_iff` says exactly when the loop skips only such
sectors: when a sector that has always failed comes again, `c` others must
have been handed over since.
-/
import ZeroSdk.Dm.Failures
import ZeroSdk.Dm.ReceiveLoop

namespace ZeroSdk.Dm
open DmService Outbox
open ZeroDb (handleFaulty)

/-- `process_inbound_dm` returned `Ok`: the message is stored, and the
Delivered receipt is queued under the id drawn for it, which was not taken. -/
def Handed.Acknowledged (r : DmReceiver) (h : Handed) : Prop :=
  ∃ p, decodeDm h.sector = .ok p ∧ h.result = .ok p.messageId ∧
    messageAt h.after p.conversationId p.messageId = some (p.toMessage h.delivery.nowMs) ∧
    (h.before.get .outbox h.delivery.sectorId.bytes.val = none →
      h.after.get .outbox h.delivery.sectorId.bytes.val = some (OutboxEntry.codec.enc
        (r.receiptEntry p h.delivery.receiptMs h.delivery.sectorId h.delivery.enqueuedMs)))

def Handed.Failed (h : Handed) : Prop := ∃ e, h.result = .error e

/-! ## Success -/

theorem enqueueReceipt_ok {outbox : Outbox} {receipt : ReceiptPayload} {sectorId id : SectorId} {nowMs : UInt64}
    {s s' : ZeroDb × Faults} (h : (enqueueReceipt outbox receipt sectorId nowMs).run handleFaulty s = (.ok id, s')) :
    s'.1.cf .chains = s.1.cf .chains ∧
      (s.1.get .outbox sectorId.bytes.val = none →
        s'.1.get .outbox sectorId.bytes.val = some (OutboxEntry.codec.enc (outboxEntry sectorId receipt.toAllocvec nowMs))) := by
  unfold enqueueReceipt at h
  obtain ⟨u, s₁, henq, hrest⟩ := (Prog.run_bind_eq_ok _).mp h
  cases hrest
  rcases enqueue_ok (mapErr_ok henq) with ⟨hsome, heq⟩ | heq
  · refine ⟨by rw [heq], fun hnone => ?_⟩
    have hkey : (outboxEntry sectorId receipt.toAllocvec nowMs).sectorId = sectorId := rfl
    rw [hkey, hnone] at hsome
    cases hsome
  · rw [heq]
    exact ⟨s.1.cf_put_other _ _ (by decide), fun _ => ZeroDb.get_put_self _ _ _ _⟩

/-- What `process_inbound_dm` did if it returns `Ok`: after opening the
conversation it has stored the message and queued the receipt. -/
theorem processInboundDm_ok {blake3 : Bytes → Arr 32} {r : DmReceiver} {bytes : Bytes} {nowMs receiptMs : UInt64}
    {sectorId : SectorId} {enqueuedMs : UInt64} {s s' : ZeroDb × Faults} {id : MessageId}
    (h : (r.processInboundDm blake3 bytes nowMs receiptMs sectorId enqueuedMs).run handleFaulty s = (.ok id, s')) :
    ∃ (p : DmSectorPayload) (db : ZeroDb) (s₂ : ZeroDb × Faults) (queued : SectorId),
      decodeDm bytes = .ok p ∧ p.messageId = id ∧ db.cf .outbox = s.1.cf .outbox ∧
      s₂.1 = db.put .chains (makeMsgKey p.conversationId p.messageId) (Message.codec.enc (p.toMessage nowMs)) ∧
      (enqueueReceipt Outbox.new
        (buildDeliveredReceipt p.messageId p.conversationId r.identity r.machineId receiptMs) sectorId
        enqueuedMs).run handleFaulty s₂ = (.ok queued, s') := by
  unfold DmReceiver.processInboundDm at h
  obtain ⟨p, s₀, hlift, h⟩ := (Prog.run_bind_eq_ok _).mp h
  rw [Prog.run_lift] at hlift
  obtain ⟨hdec, rfl⟩ := Prod.mk.inj hlift
  obtain ⟨opened, s₁, hopen, h⟩ := (Prog.run_bind_eq_ok _).mp h
  rw [Prog.run_attempt] at hopen
  obtain ⟨-, rfl⟩ := Prod.mk.inj hopen
  -- opening a conversation leaves the outbox alone
  have hout := keeps_openConversation (P := fun db => db.cf .outbox = s.1.cf .outbox)
    (fun db _ hdb => (db.cf_put_other _ _ (by decide)).trans hdb) blake3 r.service p.senderIdentity s rfl
  split at h
  · cases h
  · obtain ⟨u, s₂, hstore, h⟩ := (Prog.run_bind_eq_ok _).mp h
    obtain ⟨queued, s₃, henq, h⟩ := (Prog.run_bind_eq_ok _).mp h
    cases h
    exact ⟨p, _, s₂, queued, hdec, rfl, hout, putRaw_ok (mapErr_ok hstore), henq⟩

theorem acknowledged_of_ok (blake3 : Bytes → Arr 32) (r : DmReceiver) (d : Delivery) (db : ZeroDb) {id : MessageId}
    (h : (d.process blake3 r db).result = .ok id) : (d.process blake3 r db).Acknowledged r := by
  have hrun : (r.processInboundDm blake3 d.sectorBytes d.nowMs d.receiptMs d.sectorId d.enqueuedMs).run handleFaulty
      (db, d.faults) = (.ok id, _) := Prod.ext h rfl
  obtain ⟨p, db₁, s₂, queued, hdec, rfl, hout, hstore, henq⟩ := processInboundDm_ok hrun
  obtain ⟨hchains, hqueued⟩ := enqueueReceipt_ok henq
  rw [hstore] at hchains
  have hmsg := (Update.put_message db₁ (p.toMessage d.nowMs)).then_none (.of_cf_eq hchains)
  refine ⟨p, hdec, h, ?_, fun hnone => hqueued ?_⟩
  · exact (hmsg.messages p.conversationId p.messageId).trans (if_pos ⟨rfl, rfl⟩)
  · have hget : ∀ k, s₂.1.get .outbox k = db.get .outbox k := by
      intro k
      rw [hstore]
      unfold ZeroDb.get
      rw [ZeroDb.cf_put_other _ _ _ (by decide), hout]
    rw [hget]
    exact hnone

/-! ## Redelivery -/

section Redelivery
variable (blake3 : Bytes → Arr 32) (r : DmReceiver)

theorem failed_or_acknowledged (st : LoopState) {pre : List Delivery} {h : Handed}
    (hh : h ∈ handedOver (receiveLoop blake3 r st (pre.map .ok)).2) : h.Failed ∨ h.Acknowledged r := by
  obtain ⟨d, -, db, rfl⟩ := handed_eq_process blake3 r st hh
  cases hres : (d.process blake3 r db).result with
  | error e => exact .inl ⟨e, hres⟩
  | ok id => exact .inr (acknowledged_of_ok blake3 r d db hres)

theorem Handed.Acknowledged.not_failed {r : DmReceiver} {h : Handed} (hack : h.Acknowledged r) : ¬ h.Failed := by
  intro ⟨e, he⟩
  obtain ⟨p, -, hok, -⟩ := hack
  rw [he] at hok
  cases hok

/-- The sector has not been handed over and failed lately: where it has failed
every time so far, at least `c` sectors were handed over after the last time. -/
def NotLatelyFailed (c : Nat) (hist : List Handed) (b : Bytes) : Prop :=
  ∀ p h q, hist = p ++ h :: q → h.sector = b → (∀ h' ∈ p ++ [h], h'.sector = b → h'.Failed) → c ≤ q.length

variable (db : ZeroDb) {c : Nat} (pos : 0 < c)

theorem skipped_iff_handed {stream pre post : List Delivery} {d : Delivery} (heq : stream = pre ++ d :: post)
    (hinj : (sectorsOf stream).InjOn (dedupeId blake3)) :
    (receiveAll blake3 r db c pos stream).2[pre.length]? = some (.skipped d) ↔
      ∃ p h q, handedOver (receiveAll blake3 r db c pos pre).2 = p ++ h :: q ∧ h.sector = d.sectorBytes ∧
        q.length < c := by
  rw [skipped_iff blake3 r db pos heq hinj, mem_rtake_iff]
  constructor
  · intro ⟨ps, qs, hsplit, hlt⟩
    obtain ⟨p, rest, hhist, rfl, hrest⟩ := List.map_eq_append_iff.mp hsplit
    obtain ⟨h, q, rfl, hsector, rfl⟩ := List.map_eq_cons_iff.mp hrest
    rw [List.length_map] at hlt
    exact ⟨p, h, q, hhist, hsector, hlt⟩
  · intro ⟨p, h, q, hhist, hsector, hlt⟩
    refine ⟨p.map Handed.sector, q.map Handed.sector, ?_, by rw [List.length_map]; exact hlt⟩
    unfold handedSectors
    rw [hhist, List.map_append, List.map_cons, hsector]

/-- A sector handed over again has more than `c` between itself and the end. -/
theorem handed_again {pre : List Delivery} {p q : List Handed} {h h' : Handed}
    (hhist : handedOver (receiveAll blake3 r db c pos pre).2 = p ++ h :: q) (hmem : h' ∈ q)
    (hsector : h'.sector = h.sector) : c < q.length := by
  obtain ⟨q₁, q₂, rfl⟩ := List.append_of_mem hmem
  have hsectors : handedSectors (receiveAll blake3 r db c pos pre).2 =
      p.map Handed.sector ++ h.sector :: (q₁.map Handed.sector ++ h.sector :: q₂.map Handed.sector) := by
    unfold handedSectors
    rw [hhist, List.map_append, List.map_cons, List.map_append, List.map_cons, hsector]
  have hgap := (gap_handedSectors blake3 r db pos hsectors).1
  simp only [List.length_take, List.length_map] at hgap
  simp only [List.length_append, List.length_cons]
  omega

/-- **Failed sectors.** The loop skips only sectors that were processed with
result `Ok` before, if and only if no sector comes again that has failed
lately. -/
theorem failed_not_suppressed_iff {stream : List Delivery} (hinj : (sectorsOf stream).InjOn (dedupeId blake3)) :
    (∀ pre d post, stream = pre ++ d :: post →
      (receiveAll blake3 r db c pos stream).2[pre.length]? = some (.skipped d) →
      ∃ h ∈ handedOver (receiveAll blake3 r db c pos pre).2, h.sector = d.sectorBytes ∧ h.Acknowledged r) ↔
    ∀ pre d post, stream = pre ++ d :: post →
      NotLatelyFailed c (handedOver (receiveAll blake3 r db c pos pre).2) d.sectorBytes := by
  constructor
  · intro hall pre d post heq p h q hhist hsector hfailed
    by_contra hlt
    have hskip := (skipped_iff_handed blake3 r db pos heq hinj).mpr ⟨p, h, q, hhist, hsector, Nat.lt_of_not_le hlt⟩
    obtain ⟨h', hmem, hsec', hack⟩ := hall pre d post heq hskip
    rw [hhist, List.append_cons, List.mem_append] at hmem
    rcases hmem with hmem | hmem
    · exact hack.not_failed (hfailed h' hmem hsec')
    · -- handed over again so soon: the window forbids it
      have := handed_again blake3 r db pos hhist hmem (hsec'.trans hsector.symm)
      omega
  · intro hall pre d post heq hskip
    obtain ⟨p, h, q, hhist, hsector, hlt⟩ := (skipped_iff_handed blake3 r db pos heq hinj).mp hskip
    -- the sector has not failed every time
    obtain ⟨h', hmem, hsec', hnot⟩ : ∃ h' ∈ p ++ [h], h'.sector = d.sectorBytes ∧ ¬ h'.Failed := by
      by_contra hnone
      have hle := hall pre d post heq p h q hhist hsector fun h' hmem hsec' => by
        by_contra hf
        exact hnone ⟨h', hmem, hsec', hf⟩
      omega
    have hmem' : h' ∈ handedOver (receiveAll blake3 r db c pos pre).2 := by
      rw [hhist, List.append_cons]
      exact List.mem_append_left _ hmem
    exact ⟨h', hmem', hsec', (failed_or_acknowledged blake3 r _ hmem').resolve_left hnot⟩

end Redelivery

/-- Ids tell the one sector of a stream apart from itself. -/
theorem injOn_of_same {stream : List Delivery} {b : Bytes} (h : ∀ d ∈ stream, d.sectorBytes = b)
    (f : Bytes → SectorId) : (sectorsOf stream).InjOn f := by
  intro x ⟨d, hd, hx⟩ y ⟨d', hd', hy⟩ _
  rw [← hx, ← hy, h d hd, h d' hd']

/-- `hello` twice: the first time it is processed, the second time skipped. -/
theorem failed_not_suppressed_iff_hello :
    (sectorsOf [helloDelivery, helloDelivery]).InjOn (dedupeId padded) ∧
      ∃ h ∈ handedOver (receiveAll padded stranger ZeroDb.empty 1 (by decide) [helloDelivery]).2,
        h.sector = helloDelivery.sectorBytes ∧ h.Acknowledged stranger := by
  have hinj : (sectorsOf [helloDelivery, helloDelivery]).InjOn (dedupeId padded) :=
    injOn_of_same (b := helloDelivery.sectorBytes) (by simp) _
  have hiff := failed_not_suppressed_iff padded stranger ZeroDb.empty (by decide : 0 < 1) hinj
  refine ⟨hinj, hiff.mpr ?_ [helloDelivery] helloDelivery [] rfl ?_⟩
  · -- at the first delivery nothing was handed over, at the second `hello` was, with result `Ok`
    intro pre d post heq p h q hhist hsector hfailed
    have hok : (helloDelivery.process padded stranger ZeroDb.empty).result = .ok hello.messageId := by decide +kernel
    match pre, heq with
    | [], _ => exact absurd hhist (by simp [receiveAll, receiveLoop, handedOver])
    | [d₁], heq =>
      obtain ⟨rfl, -⟩ := List.cons.inj heq
      have hlast : handedOver (receiveAll padded stranger ZeroDb.empty 1 (by decide) [helloDelivery]).2 =
          [helloDelivery.process padded stranger ZeroDb.empty] := rfl
      rw [hlast] at hhist
      have hmem : h ∈ [helloDelivery.process padded stranger ZeroDb.empty] := by
        rw [hhist]
        exact List.mem_append_right _ List.mem_cons_self
      obtain ⟨e, he⟩ := hfailed h (List.mem_append_right _ (List.mem_singleton.mpr rfl)) hsector
      rw [List.mem_singleton.mp hmem, hok] at he
      cases he
    | _ :: _ :: _, heq =>
      have := congrArg List.length heq
      simp at this
  · have heq : [helloDelivery, helloDelivery] = [helloDelivery] ++ helloDelivery :: [] := rfl
    exact (skipped_iff padded stranger ZeroDb.empty (by decide) heq hinj).mpr (by decide +kernel)

/-- `hello` while RocksDB fails at its second operation, the write of the
message. -/
def helloFailing : Delivery := { helloDelivery with faults := [none, some ⟨⟨"IO error"⟩, 0⟩] }

/-- `hello` fails and comes again, with no failure this time: it is skipped,
and was never processed with result `Ok`. -/
theorem failed_sector_suppressed :
    (sectorsOf [helloFailing, helloDelivery]).InjOn (dedupeId padded) ∧
    decodeDm helloDelivery.sectorBytes = .ok hello ∧
    ¬ ∀ pre d post, [helloFailing, helloDelivery] = pre ++ d :: post →
      (receiveAll padded stranger ZeroDb.empty 8 (by decide) [helloFailing, helloDelivery]).2[pre.length]? =
        some (.skipped d) →
      ∃ h ∈ handedOver (receiveAll padded stranger ZeroDb.empty 8 (by decide) pre).2,
        h.sector = d.sectorBytes ∧ h.Acknowledged stranger := by
  have hinj : (sectorsOf [helloFailing, helloDelivery]).InjOn (dedupeId padded) :=
    injOn_of_same (b := helloDelivery.sectorBytes) (by simp [helloFailing]) _
  refine ⟨hinj, decodeDm_enc hello, fun hall => ?_⟩
  have heq : [helloFailing, helloDelivery] = [helloFailing] ++ helloDelivery :: [] := rfl
  obtain ⟨h, hmem, -, hack⟩ := hall [helloFailing] helloDelivery [] heq
    ((skipped_iff padded stranger ZeroDb.empty (by decide) heq hinj).mpr (by decide +kernel))
  have hlast : handedOver (receiveAll padded stranger ZeroDb.empty 8 (by decide) [helloFailing]).2 =
      [helloFailing.process padded stranger ZeroDb.empty] := rfl
  rw [hlast, List.mem_singleton] at hmem
  refine hack.not_failed ⟨.storage (.rocks ⟨"IO error"⟩), ?_⟩
  rw [hmem]
  decide +kernel

end ZeroSdk.Dm
