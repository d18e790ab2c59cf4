/-
What a receipt may do to a message. `is_valid_receipt_status` admits Delivered
and Read and its tests reject the rest, but `process_receipt` does not ask it:
it hands the receipt's status to `update_status`, which checks only that it is
later than the stored one. Queued never is, so one way remains: a Sent receipt
moves a Queued message, as if it had been published
(`sent_receipt_moves_queued`).

`receipt_applies_iff` says exactly what that leaves, in any database and in
those where messages are stored under their own ids.
-/
import ZeroSdk.Dm.Failures

namespace ZeroSdk.Dm
open DmService

/-- `is_valid_receipt_status`. -/
def isValidReceiptStatus : MessageStatus → Bool
  | .delivered | .read => true
  | _ => false

/-- From `db` to `db'` the receipt's message has the greater of its status and
the receipt's, and apart from the time of the status nothing has changed. -/
structure Advances (db db' : ZeroDb) (r : ReceiptPayload) : Prop where
  elsewhere : ∀ f k, f ≠ .chains ∨ k ≠ makeMsgKey r.conversationId r.messageId → db'.get f k = db.get f k
  unknown : messageAt db r.conversationId r.messageId = none → db' = db
  message : ∀ m, messageAt db r.conversationId r.messageId = some m → ∃ ms,
    messageAt db' r.conversationId r.messageId =
      some { m with status := max m.status r.status, statusUpdatedAtMs := ms }

/-- What a receipt is to do: nothing unless its status is one of a receipt's,
and else advance its message. -/
def AppliesReceipt (db db' : ZeroDb) (r : ReceiptPayload) : Prop :=
  (isValidReceiptStatus r.status = false → db' = db) ∧ (isValidReceiptStatus r.status = true → Advances db db' r)

/-- If the receipt's status is later than that of the message stored under its
ids, it is one of a receipt's and these are the message's own ids; or else what
`process_receipt` is about to write is there already. -/
def ReceiptFits (db : ZeroDb) (r : ReceiptPayload) (nowMs : UInt64) : Prop :=
  ∀ m, messageAt db r.conversationId r.messageId = some m → m.status < r.status →
    isValidReceiptStatus r.status = true ∧ m.conversationId = r.conversationId ∧ m.id = r.messageId ∨
    isValidReceiptStatus r.status = false ∧ db.get .chains (makeMsgKey m.conversationId m.id) =
      some (Message.codec.enc { m with status := r.status, statusUpdatedAtMs := nowMs })

theorem put_eq_self_iff {db : ZeroDb} {f : Cf} {k v : Bytes} : db.put f k v = db ↔ db.get f k = some v := by
  constructor
  · intro h
    rw [← h]
    exact ZeroDb.get_put_self _ _ _ _
  · intro h
    refine ZeroDb.ext' fun f' k' => ?_
    rw [ZeroDb.get_put]
    split
    · next hsame =>
      obtain ⟨rfl, rfl⟩ := hsame
      exact h.symm
    · rfl

section Receipts
variable {db : ZeroDb} {r : ReceiptPayload}

/-- A receipt that is not later leaves everything as it is. -/
theorem applies_unchanged (h : ∀ m, messageAt db r.conversationId r.messageId = some m → ¬ m.status < r.status) :
    AppliesReceipt db db r := by
  refine ⟨fun _ => rfl, fun _ => ⟨fun _ _ _ => rfl, fun _ => rfl, fun m hm => ⟨m.statusUpdatedAtMs, ?_⟩⟩⟩
  rw [hm, max_eq_left (not_lt.mp (h m hm))]

/-- Writing the message with a later status advances it exactly if the message
is stored under its own ids. -/
theorem advances_put_iff {m : Message} (hm : messageAt db r.conversationId r.messageId = some m)
    (hlt : m.status < r.status) (nowMs : UInt64) :
    Advances db (db.put .chains (makeMsgKey m.conversationId m.id)
        (Message.codec.enc { m with status := r.status, statusUpdatedAtMs := nowMs })) r ↔
      m.conversationId = r.conversationId ∧ m.id = r.messageId := by
  have hput := (Update.put_message db { m with status := r.status, statusUpdatedAtMs := nowMs }).messages
    r.conversationId r.messageId
  constructor
  · intro h
    by_contra hother
    obtain ⟨ms, hafter⟩ := h.message m hm
    -- the message under the receipt's ids is still the old one
    rw [hput.trans (if_neg hother), hm, Option.some.injEq] at hafter
    have hstatus : m.status = max m.status r.status := congrArg Message.status hafter
    rw [max_eq_right (le_of_lt hlt)] at hstatus
    exact absurd hlt (hstatus ▸ lt_irrefl _)
  · intro hown
    refine ⟨fun f k hk => ?_, fun hnone => ?_, fun m' hm' => ⟨nowMs, ?_⟩⟩
    · rw [ZeroDb.get_put, hown.1, hown.2]
      refine if_neg fun hsame => ?_
      rcases hk with hf | hk
      · exact hf hsame.1
      · exact hk hsame.2
    · rw [hm] at hnone
      cases hnone
    · obtain rfl := Option.some.inj (hm.symm.trans hm')
      rw [hput.trans (if_pos hown), max_eq_right (le_of_lt hlt)]

theorem applies_iff_fits (nowMs : UInt64) :
    AppliesReceipt db (db.run (processReceipt r nowMs)).2 r ↔ ReceiptFits db r nowMs := by
  unfold processReceipt
  rcases update_updateStatus db r.conversationId r.messageId r.status nowMs with
    ⟨e, hrun, hnot⟩ | ⟨m, hm, hlt, hrun⟩
  · rw [hrun]
    exact iff_of_true (applies_unchanged hnot) fun m hm hlt => absurd hlt (hnot m hm)
  · have hwrite : (db.run (storeMessage { m with status := r.status, statusUpdatedAtMs := nowMs })).2 =
        db.put .chains (makeMsgKey m.conversationId m.id)
          (Message.codec.enc { m with status := r.status, statusUpdatedAtMs := nowMs }) := rfl
    have hfits : ReceiptFits db r nowMs ↔
        isValidReceiptStatus r.status = true ∧ m.conversationId = r.conversationId ∧ m.id = r.messageId ∨
        isValidReceiptStatus r.status = false ∧ db.get .chains (makeMsgKey m.conversationId m.id) =
          some (Message.codec.enc { m with status := r.status, statusUpdatedAtMs := nowMs }) := by
      unfold ReceiptFits
      rw [hm]
      exact ⟨fun h => h m rfl hlt, fun h m' hm' _ => Option.some.inj hm' ▸ h⟩
    rw [hrun, hwrite, hfits, ← put_eq_self_iff, ← advances_put_iff hm hlt nowMs, AppliesReceipt]
    cases isValidReceiptStatus r.status <;> simp

theorem fits_iff (hw : WellKeyed db) (nowMs : UInt64) : ReceiptFits db r nowMs ↔
    ¬ (r.status = .sent ∧ ∃ m, messageAt db r.conversationId r.messageId = some m ∧ m.status = .queued) := by
  constructor
  · intro h ⟨hsent, m, hm, hqueued⟩
    rcases h m hm (by rw [hsent, hqueued]; decide) with ⟨hvalid, -⟩ | ⟨-, hthere⟩
    · rw [hsent] at hvalid
      cases hvalid
    · -- what is stored is not Sent already
      obtain ⟨hc, hid⟩ := hw.own hm
      rw [hc, hid, hw.get_eq, hm, Option.map_some, Option.some.injEq] at hthere
      have hstatus : m.status = r.status := congrArg Message.status (Postcard.enc_injective _ hthere)
      rw [hsent, hqueued] at hstatus
      cases hstatus
  · intro h m hm hlt
    cases hs : r.status with
    | queued =>
      rw [hs] at hlt
      exact absurd hlt (by cases m.status <;> decide)
    | sent =>
      rw [hs] at hlt
      refine absurd ⟨hs, m, hm, ?_⟩ h
      revert hlt
      cases m.status <;> decide
    | delivered => exact .inl ⟨rfl, hw.own hm⟩
    | read => exact .inl ⟨rfl, hw.own hm⟩

end Receipts

/-- **When only valid receipts move a status.** In any database
`process_receipt` does what a receipt is to do exactly if the receipt `Fits`
what is stored under its ids. Where messages are stored under their own ids,
as the services store them, that is unless the receipt says Sent of a message
that is Queued. -/
theorem receipt_applies_iff (db : ZeroDb) (r : ReceiptPayload) (nowMs : UInt64) :
    (AppliesReceipt db (db.run (processReceipt r nowMs)).2 r ↔ ReceiptFits db r nowMs) ∧
      (WellKeyed db → (AppliesReceipt db (db.run (processReceipt r nowMs)).2 r ↔
        ¬ (r.status = .sent ∧ ∃ m, messageAt db r.conversationId r.messageId = some m ∧ m.status = .queued))) :=
  ⟨applies_iff_fits nowMs, fun hw => (applies_iff_fits nowMs).trans (fits_iff hw nowMs)⟩

/-- A Read receipt for a delivered message. -/
theorem receipt_applies_iff_read :
    let r : ReceiptPayload := ⟨heard.id, talk.conversationId, talk.peerIdentity, ⟨Arr.fill 16 3⟩, .read, 9⟩
    AppliesReceipt talking (talking.run (processReceipt r 10)).2 r := by
  intro r
  have hw : WellKeyed talking := (talking_reachable fun _ => Arr.fill 32 0).ownKeys.wellKeyed
  exact ((receipt_applies_iff talking r 10).2 hw).mpr fun h => by cases h.1

/-- A message is sent and waits in the outbox; a Sent receipt for it moves it. -/
theorem sent_receipt_moves_queued :
    let id : MessageId := ⟨Arr.fill 16 8⟩
    let r : ReceiptPayload := ⟨id, talk.conversationId, talk.peerIdentity, ⟨Arr.fill 16 3⟩, .sent, 9⟩
    let db := (talking.run (talker.sendText talk.conversationId Str.empty 8 id (sectorNo 0))).2
    let db' := (db.run (processReceipt r 10)).2
    decodeReceipt (ReceiptPayload.codec.enc r) = .ok r ∧ isValidReceiptStatus r.status = false ∧
      (messageAt db talk.conversationId id).map (·.status) = some .queued ∧
      (messageAt db' talk.conversationId id).map (·.status) = some .sent ∧ ¬ AppliesReceipt db db' r := by
  intro id r db db'
  have hbefore : (messageAt db talk.conversationId id).map (·.status) = some .queued := by decide +kernel
  have hafter : (messageAt db' talk.conversationId id).map (·.status) = some .sent := by decide +kernel
  refine ⟨by decide +kernel, rfl, hbefore, hafter, fun h => ?_⟩
  rw [h.1 rfl, hbefore] at hafter
  cases hafter

end ZeroSdk.Dm
