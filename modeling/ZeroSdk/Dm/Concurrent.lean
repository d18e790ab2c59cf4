/-
Status changes of one message that run at the same time: receipts handled
by the receive task, `update_status` and `mark_read` called by the user.
Each compares the status it asks for with the one it read, and writes the
message back later, over whatever is stored by then. A `Delivered` receipt
that read the message before it was marked read takes it back from `Read`
(`stale_receipt_lowers`).

`receipts_commute` is what holds: over every interleaving in which no call
writes over a status above the one it asks for, the stored status is the
greatest of the first one and those the finished calls asked for.
-/
import ZeroSdk.Dm.Chains
import ZeroSdk.Storage.Threads

namespace ZeroSdk.Dm
open Interleave DmService

variable {ι : Type}

/-- A call that changes the status of a message, with its clock readings. -/
inductive StatusCall
  | processReceipt (recipientIdentity : IdentityId) (recipientMachine : MachineId) (status : MessageStatus)
    (timestampMs nowMs : UInt64)
  | updateStatus (newStatus : MessageStatus) (nowMs : UInt64)
  | markRead (s : DmService) (updatedMs nowMs : UInt64)

namespace StatusCall

/-- The status a call asks for. -/
def requested : StatusCall → MessageStatus
  | .processReceipt _ _ status _ _ => status
  | .updateStatus newStatus _ => newStatus
  | .markRead _ _ _ => .read

/-- The time it writes with the status. -/
def updatedMs : StatusCall → UInt64
  | .processReceipt _ _ _ _ nowMs => nowMs
  | .updateStatus _ nowMs => nowMs
  | .markRead _ updatedMs _ => updatedMs

/-- The call for a message; the receipt `mark_read` returns is dropped. -/
def prog (conversationId : ConversationId) (messageId : MessageId) : StatusCall → DbProg DmError Unit
  | .processReceipt recipientIdentity recipientMachine status timestampMs nowMs =>
    DmService.processReceipt ⟨messageId, conversationId, recipientIdentity, recipientMachine, status, timestampMs⟩ nowMs
  | .updateStatus newStatus nowMs => DmService.updateStatus conversationId messageId newStatus nowMs
  | .markRead s updatedMs nowMs => do
    let _ ← s.markRead conversationId messageId updatedMs nowMs
    pure ()

/-- What a call makes of the message it read. -/
def decision (call : StatusCall) (m : Message) : Except DmError (Option Message) :=
  if m.status < call.requested then
    .ok (some { m with status := call.requested, statusUpdatedAtMs := call.updatedMs })
  else .error (.invalidStatusTransition m.status call.requested)

end StatusCall

theorem decision_status {call : StatusCall} {m new : Message} (h : call.decision m = .ok (some new)) :
    new.status = call.requested := by
  unfold StatusCall.decision at h
  split at h
  · cases h
    rfl
  · cases h

theorem decision_refused {call : StatusCall} {m : Message} (h : ∀ new, call.decision m ≠ .ok (some new)) :
    call.requested ≤ m.status := by
  by_contra hlt
  exact h _ (if_pos (not_le.mp hlt))

/-- The bytes `b` are those of the message `m` of a conversation and id. -/
def Stands (c : ConversationId) (id : MessageId) (b : Bytes) (m : Message) : Prop :=
  decodeMessage b = .ok m ∧ m.conversationId = c ∧ m.id = id

/-- `update_status` reads the message and goes on as its guard says. -/
theorem rmw_updateStatus (c : ConversationId) (id : MessageId) (new : MessageStatus) (now : UInt64) :
    Rmw .chains (makeMsgKey c id) (Stands c id) (StatusCall.updateStatus new now).decision
      (updateStatus c id new now) := by
  refine ⟨_, rfl, fun b m hb => ?_⟩
  change Rmw.Rest _ _ _ _ (((Prog.lift (decodeMessage b)).bind fun m => pure (some m)).bind _)
  rw [hb.1]
  change Rmw.Rest _ _ _ _ (if !m.status.isValidTransition new then _ else _)
  by_cases hlt : m.status < new
  · have hv : m.status.isValidTransition new = true := by simpa [MessageStatus.isValidTransition] using hlt
    simp only [StatusCall.decision, StatusCall.requested, StatusCall.updatedMs, hlt, hv, if_true, Phase.decided]
    obtain ⟨-, rfl, rfl⟩ := hb
    exact ⟨_, _, rfl, ⟨decodeMessage_enc _, rfl, rfl⟩, rfl⟩
  · have hv : m.status.isValidTransition new = false := by simpa [MessageStatus.isValidTransition] using hlt
    simp only [StatusCall.decision, StatusCall.requested, hlt, hv, if_false, Phase.decided]
    rfl

theorem StatusCall.rmw (call : StatusCall) (c : ConversationId) (id : MessageId) :
    Rmw .chains (makeMsgKey c id) (Stands c id) call.decision (call.prog c id) := by
  cases call with
  | processReceipt recipientIdentity recipientMachine status timestampMs nowMs => exact rmw_updateStatus c id status nowMs
  | updateStatus newStatus nowMs => exact rmw_updateStatus c id newStatus nowMs
  | markRead s updatedMs nowMs => exact (rmw_updateStatus c id .read updatedMs).drop _

/-- Calls for one message of a shared database, none of them started. -/
def concurrently (c : ConversationId) (id : MessageId) (db : ZeroDb) (calls : ι → StatusCall) : Threads ι DmError :=
  ⟨fun i => (calls i).prog c id, db⟩

variable [DecidableEq ι]

/-- **Concurrent status changes commute** in every interleaving where each
write finds a status that is not above the one it asks for: the status
stored is the greatest of the first one and the ones the calls that have
returned asked for. -/
theorem receipts_commute {db : ZeroDb} {m : Message} (hm : messageAt db m.conversationId m.id = some m)
    (calls : ι → StatusCall) (sched : List ι)
    (hraise : ∀ pre i post, sched = pre ++ i :: post →
      ((concurrently m.conversationId m.id db calls).run pre).next i = some .write →
      ∀ m', messageAt ((concurrently m.conversationId m.id db calls).run pre).state m.conversationId m.id = some m' →
        m'.status ≤ (calls i).requested) :
    ∃ m', messageAt ((concurrently m.conversationId m.id db calls).run sched).state m.conversationId m.id = some m' ∧
      IsGreatest {s | s = m.status ∨
        ∃ i, (((concurrently m.conversationId m.id db calls).run sched).result i).isSome ∧ s = (calls i).requested}
        m'.status := by
  obtain ⟨b, hb, hdec⟩ := messageAt_eq_some.mp hm
  have hcell := fun sched => Rmw.run_cell (t := concurrently m.conversationId m.id db calls)
    (fun i => (calls i).rmw m.conversationId m.id) hb ⟨hdec, rfl, rfl⟩ sched
  have hstored : ∀ sched,
      messageAt ((concurrently m.conversationId m.id db calls).run sched).state m.conversationId m.id =
        some (Interleave.run (Cell.turn fun i => (calls i).decision) (Cell.init m) sched).value := by
    intro sched
    obtain ⟨b', hb', hdec', -, -⟩ := (hcell sched).1.stored
    exact messageAt_eq_some.mpr ⟨b', hb', hdec'⟩
  refine ⟨_, hstored sched, ?_⟩
  have hg := Cell.isGreatest_value Message.status (fun i => (calls i).requested)
    (fun _ _ _ h => decision_status h) (fun _ _ h => decision_refused h) m sched
    (fun pre i post new heq hp => hraise pre i post heq ((hcell pre).1.next_write hp) _ (hstored pre))
  have hasked : {s | s = m.status ∨
      ∃ i, (((concurrently m.conversationId m.id db calls).run sched).result i).isSome ∧ s = (calls i).requested} =
      Cell.asked Message.status (fun i => (calls i).requested) m
        (Interleave.run (Cell.turn fun i => (calls i).decision) (Cell.init m) sched) := by
    ext s
    simp only [Cell.asked, Set.mem_ofPred_eq, Option.isSome_iff_exists, (hcell sched).1.result_iff]
    constructor
    · intro h
      rcases h with h | ⟨i, ⟨r, hr⟩, h⟩
      · exact .inl h
      · exact .inr ⟨i, r, hr, h⟩
    · intro h
      rcases h with h | ⟨i, r, hr, h⟩
      · exact .inl h
      · exact .inr ⟨i, ⟨r, hr⟩, h⟩
  rw [hasked]
  exact hg

/-- A message that was sent. -/
def sentMessage : Message :=
  ⟨⟨Arr.fill 16 7⟩, ⟨Arr.fill 32 9⟩, ⟨Arr.fill 16 2⟩, ⟨Arr.fill 16 3⟩, Str.empty, .sent, 5, 6⟩

/-- A `Delivered` receipt, and a `mark_read`. -/
def receiptAndRead : Bool → StatusCall
  | false => .processReceipt ⟨Arr.fill 16 1⟩ ⟨Arr.fill 16 1⟩ .delivered 10 20
  | true => .markRead ⟨⟨Arr.fill 16 2⟩, ⟨Arr.fill 16 3⟩, ⟨⟨Arr.fill 16 2⟩⟩⟩ 21 21

/-- The database that holds `sentMessage`. -/
def sentDb : ZeroDb :=
  ZeroDb.empty.put .chains (makeMsgKey sentMessage.conversationId sentMessage.id) (Message.codec.enc sentMessage)

/-- Both read the message as sent; the receipt writes first. -/
theorem receipts_commute_receipt_first :
    let t := concurrently sentMessage.conversationId sentMessage.id sentDb receiptAndRead
    let sched := [false, true, false, true]
    ∃ m', messageAt (t.run sched).state sentMessage.conversationId sentMessage.id = some m' ∧
      IsGreatest {s | s = sentMessage.status ∨ ∃ i, ((t.run sched).result i).isSome ∧ s = (receiptAndRead i).requested}
        m'.status := by
  intro t sched
  refine receipts_commute (by decide +kernel) receiptAndRead sched fun pre i post heq hnext m' hm' => ?_
  -- the statuses the two writes find: Sent and Delivered
  have hstatus := congrArg (Option.map Message.status) hm'
  change [false, true, false, true] = pre ++ i :: post at heq
  rcases pre with _ | ⟨_, _ | ⟨_, _ | ⟨_, _ | ⟨_, pre⟩⟩⟩⟩
  · cases heq
    exact absurd hnext (by decide +kernel)
  · cases heq
    exact absurd hnext (by decide +kernel)
  · cases heq
    have hsent : (some MessageStatus.sent) = some m'.status := Eq.trans (by decide +kernel) hstatus
    rw [← Option.some.inj hsent]
    decide
  · cases heq
    have hdelivered : (some MessageStatus.delivered) = some m'.status := Eq.trans (by decide +kernel) hstatus
    rw [← Option.some.inj hdelivered]
    decide
  · simp at heq

/-- Both read the message as sent; the receipt writes last, and `Read` is
lost. -/
theorem stale_receipt_lowers :
    let t := concurrently sentMessage.conversationId sentMessage.id sentDb receiptAndRead
    let sched := [false, true, true, false]
    ((t.run sched).result false = some (.ok ()) ∧ (t.run sched).result true = some (.ok ())) ∧
      (messageAt (t.run sched).state sentMessage.conversationId sentMessage.id).map (·.status) = some .delivered ∧
      max sentMessage.status (max (receiptAndRead false).requested (receiptAndRead true).requested) = .read := by
  decide +kernel

end ZeroSdk.Dm
