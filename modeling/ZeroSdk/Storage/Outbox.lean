/-
The persistent outbox: entries in `CF_OUTBOX` under their sector id, at most
`capacity` of them. `enqueue_cases` says what `enqueue` can do: nothing for a
sector that is queued already, `OutboxFull` without a write, or one write.
What is queued is what was enqueued: `Queued P` (every queued payload is a
`P`) is kept by every operation, and holds of what `dequeue_due` returns.
-/
import Mathlib.Data.List.Sort
import ZeroSdk.Storage.Db

namespace ZeroSdk

/-- A single outbox entry. -/
structure OutboxEntry where
  sectorId : SectorId
  payload : Vec UInt8
  attemptCount : UInt8
  nextAttemptMs : UInt64
  createdAtMs : UInt64
  deriving DecidableEq

open Postcard in
def OutboxEntry.codec : Codec OutboxEntry :=
  iso (pair SectorId.codec (pair (vec u8) (pair u8 (pair u64 u64))))
    (fun e => (e.sectorId, e.payload, e.attemptCount, e.nextAttemptMs, e.createdAtMs))
    (fun (s, p, a, n, c) => ⟨s, p, a, n, c⟩) fun _ => rfl

/-- A handle on the outbox: the capacity it enforces. -/
structure Outbox where
  capacity : Nat

/-- `DEFAULT_OUTBOX_CAPACITY`. -/
def defaultOutboxCapacity : Nat := 1000

namespace Outbox

/-- `Outbox::new`. -/
def new : Outbox := ⟨defaultOutboxCapacity⟩

/-- The loop of `count`. -/
def countLoop (n : Nat) : List (Except RocksError (Bytes × Bytes)) → Except StorageError Nat
  | [] => .ok n
  | .error e :: _ => .error (.rocks e)
  | .ok _ :: items => countLoop (n + 1) items

def count : DbProg StorageError Nat := do
  let items ← iteratorCf .outbox .start
  Prog.lift (countLoop 0 items)

def enqueue (outbox : Outbox) (entry : OutboxEntry) : DbProg StorageError Unit := do
  let key := entry.sectorId.bytes.val
  let queued ← getRaw .outbox key
  if queued.isSome then
    pure ()
  else
    let count ← count
    if count ≥ outbox.capacity then
      Prog.fail .outboxFull
    else
      putRaw .outbox key (OutboxEntry.codec.enc entry)

def decodeEntry (b : Bytes) : Except StorageError OutboxEntry :=
  (Postcard.fromBytes OutboxEntry.codec b).mapError .codec

/-- The loop of `scan_all`. -/
def scanAllLoop : List (Except RocksError (Bytes × Bytes)) → Except StorageError (List OutboxEntry)
  | [] => .ok []
  | .error e :: _ => .error (.rocks e)
  | .ok (_, v) :: items =>
    match decodeEntry v with
    | .error e => .error e
    | .ok entry => (scanAllLoop items).map (entry :: ·)

def scanAll : DbProg StorageError (List OutboxEntry) := do
  let items ← iteratorCf .outbox .start
  Prog.lift (scanAllLoop items)

/-- `dequeue_due`: the due entries by ascending time, those of one time in
the order of their ids. -/
def dequeueDue (nowMs : UInt64) : DbProg StorageError (List OutboxEntry) := do
  let all ← scanAll
  let due := all.filter fun e => e.nextAttemptMs ≤ nowMs
  pure (due.insertionSort fun a b => a.nextAttemptMs ≤ b.nextAttemptMs)

/-- `saturating_add(1)` of a `u8`. -/
def saturatingSucc (n : UInt8) : UInt8 := if n = 255 then 255 else n + 1

/-- `mark_attempted`. -/
def markAttempted (id : SectorId) (nextAttemptMs : UInt64) : DbProg StorageError Unit := do
  let raw ← getRaw .outbox id.bytes.val
  let raw ← Prog.okOr raw (.sectorNotFound id)
  let entry ← Prog.lift (decodeEntry raw)
  let entry := { entry with attemptCount := saturatingSucc entry.attemptCount, nextAttemptMs }
  putRaw .outbox id.bytes.val (OutboxEntry.codec.enc entry)

/-- `remove`. -/
def remove (id : SectorId) : DbProg StorageError Unit := deleteRaw .outbox id.bytes.val

theorem countLoop_ok (n : Nat) (l : KvPairs) : countLoop n (l.map .ok) = .ok (n + l.length) := by
  induction l generalizing n with
  | nil => rfl
  | cons e l ih =>
    rw [List.map_cons, countLoop, ih, List.length_cons, Nat.add_assoc, Nat.add_comm 1]

@[simp] theorem run_count (db : ZeroDb) : db.run count = (.ok (db.cf .outbox).entries.length, db) := by
  have h := countLoop_ok 0 (db.cf .outbox).entries
  rw [Nat.zero_add] at h
  simp only [count, Prog.run_bind, run_iteratorCf, ZeroDb.items, h, Prog.run_lift]

/-- What `enqueue` does, by what is queued. -/
theorem run_enqueue (db : ZeroDb) (outbox : Outbox) (entry : OutboxEntry) :
    db.run (outbox.enqueue entry) =
      if (db.get .outbox entry.sectorId.bytes.val).isSome then (.ok (), db)
      else if outbox.capacity ≤ (db.cf .outbox).entries.length then (.error .outboxFull, db)
      else (.ok (), db.put .outbox entry.sectorId.bytes.val (OutboxEntry.codec.enc entry)) := by
  unfold enqueue
  simp only [Prog.run_bind, run_getRaw]
  split
  · rfl
  simp only [Prog.run_bind, run_count]
  split
  · rfl
  · rfl

theorem enqueue_cases (db : ZeroDb) (outbox : Outbox) (entry : OutboxEntry) :
    ((db.get .outbox entry.sectorId.bytes.val).isSome ∧ db.run (outbox.enqueue entry) = (.ok (), db)) ∨
    (outbox.capacity ≤ (db.cf .outbox).entries.length ∧ db.run (outbox.enqueue entry) = (.error .outboxFull, db)) ∨
    ((db.cf .outbox).entries.length < outbox.capacity ∧ db.run (outbox.enqueue entry) =
      (.ok (), db.put .outbox entry.sectorId.bytes.val (OutboxEntry.codec.enc entry))) := by
  rw [run_enqueue]
  split
  · next h => exact .inl ⟨h, rfl⟩
  split
  · next h => exact .inr (.inl ⟨h, rfl⟩)
  · next h => exact .inr (.inr ⟨by omega, rfl⟩)

theorem enqueue_cf (db : ZeroDb) (outbox : Outbox) (entry : OutboxEntry) {cf : Cf} (h : cf ≠ .outbox) :
    (db.run (outbox.enqueue entry)).2.cf cf = db.cf cf := by
  rcases enqueue_cases db outbox entry with ⟨-, hrun⟩ | ⟨-, hrun⟩ | ⟨-, hrun⟩
  · rw [hrun]
  · rw [hrun]
  · rw [hrun]
    exact db.cf_put_other _ _ h

theorem markAttempted_cf (db : ZeroDb) (id : SectorId) (nextAttemptMs : UInt64) {cf : Cf} (h : cf ≠ .outbox) :
    (db.run (markAttempted id nextAttemptMs)).2.cf cf = db.cf cf := by
  unfold markAttempted
  simp only [Prog.run_bind, run_getRaw]
  cases db.get .outbox id.bytes.val with
  | none => rfl
  | some v =>
    simp only [Prog.run_okOr_some, Prog.run_lift]
    cases decodeEntry v with
    | error e => rfl
    | ok e => exact db.cf_put_other _ _ h

theorem remove_cf (db : ZeroDb) (id : SectorId) {cf : Cf} (h : cf ≠ .outbox) :
    (db.run (remove id)).2.cf cf = db.cf cf := db.cf_delete_other _ h

/-! ## What is queued -/

/-- Every payload in the outbox is a `P`. -/
def Queued (P : Bytes → Prop) (db : ZeroDb) : Prop :=
  ∀ k v, db.get .outbox k = some v → ∃ e : OutboxEntry, v = OutboxEntry.codec.enc e ∧ P e.payload.val

variable {P : Bytes → Prop} {db : ZeroDb}

theorem Queued.mono {Q : Bytes → Prop} (h : Queued P db) (hpq : ∀ b, P b → Q b) : Queued Q db := by
  intro k v hv
  obtain ⟨e, he, hp⟩ := h k v hv
  exact ⟨e, he, hpq _ hp⟩

theorem Queued.of_cf_eq {db' : ZeroDb} (h : Queued P db) (hcf : db'.cf .outbox = db.cf .outbox) : Queued P db' := by
  intro k v hv
  refine h k v ?_
  unfold ZeroDb.get at hv ⊢
  rw [← hcf]
  exact hv

theorem Queued.put (h : Queued P db) (k : Bytes) {e : OutboxEntry} (he : P e.payload.val) :
    Queued P (db.put .outbox k (OutboxEntry.codec.enc e)) := by
  intro k' v hv
  by_cases hk : k' = k
  · subst hk
    rw [ZeroDb.get_put_self] at hv
    cases hv
    exact ⟨e, rfl, he⟩
  · rw [ZeroDb.get_put_of_ne _ _ _ hk] at hv
    exact h k' v hv

@[simp] theorem decodeEntry_enc (e : OutboxEntry) : decodeEntry (OutboxEntry.codec.enc e) = .ok e := by
  simp [decodeEntry, Except.mapError]

theorem queued_enqueue (h : Queued P db) (outbox : Outbox) {entry : OutboxEntry} (he : P entry.payload.val) :
    Queued P (db.run (outbox.enqueue entry)).2 := by
  rcases enqueue_cases db outbox entry with ⟨-, hrun⟩ | ⟨-, hrun⟩ | ⟨-, hrun⟩
  · rw [hrun]
    exact h
  · rw [hrun]
    exact h
  · rw [hrun]
    exact h.put _ he

theorem queued_markAttempted (h : Queued P db) (id : SectorId) (nextAttemptMs : UInt64) :
    Queued P (db.run (markAttempted id nextAttemptMs)).2 := by
  unfold markAttempted
  simp only [Prog.run_bind, run_getRaw]
  cases hv : db.get .outbox id.bytes.val with
  | none => exact h
  | some v =>
    obtain ⟨e, rfl, he⟩ := h _ v hv
    simp only [Prog.run_okOr_some, Prog.run_lift, decodeEntry_enc]
    exact h.put _ he

theorem queued_remove (h : Queued P db) (id : SectorId) : Queued P (db.run (remove id)).2 := by
  intro k v hv
  unfold remove at hv
  rw [run_deleteRaw, ZeroDb.get_delete] at hv
  split at hv
  · cases hv
  · exact h k v hv

theorem mem_scanAllLoop {l : KvPairs} {entries : List OutboxEntry} (h : scanAllLoop (l.map .ok) = .ok entries)
    {e : OutboxEntry} (he : e ∈ entries) : ∃ kv ∈ l, decodeEntry kv.2 = .ok e := by
  induction l generalizing entries with
  | nil =>
    cases h
    cases he
  | cons kv l ih =>
    simp only [List.map_cons, scanAllLoop] at h
    cases hd : decodeEntry kv.2 with
    | error err =>
      rw [hd] at h
      cases h
    | ok e' =>
      rw [hd] at h
      cases hl : scanAllLoop (l.map .ok) with
      | error err =>
        rw [hl] at h
        cases h
      | ok entries' =>
        rw [hl] at h
        cases h
        rcases List.mem_cons.mp he with rfl | he
        · exact ⟨kv, List.mem_cons_self, hd⟩
        · obtain ⟨kv', hkv, hdec⟩ := ih hl he
          exact ⟨kv', List.mem_cons_of_mem _ hkv, hdec⟩

theorem mem_dequeueDue {nowMs : UInt64} {due : List OutboxEntry} (h : (db.run (dequeueDue nowMs)).1 = .ok due)
    {e : OutboxEntry} (he : e ∈ due) :
    e.nextAttemptMs ≤ nowMs ∧ ∃ k v, db.get .outbox k = some v ∧ decodeEntry v = .ok e := by
  unfold dequeueDue scanAll at h
  simp only [Prog.run_bind, run_iteratorCf, ZeroDb.items, Prog.run_lift] at h
  cases hl : scanAllLoop ((db.cf .outbox).entries.map .ok) with
  | error err =>
    rw [hl] at h
    cases h
  | ok entries =>
    rw [hl] at h
    simp only [Prog.run_pure, Except.ok.injEq] at h
    rw [← h, List.mem_insertionSort, List.mem_filter] at he
    obtain ⟨⟨k, v⟩, hkv, hdec⟩ := mem_scanAllLoop hl he.1
    exact ⟨of_decide_eq_true he.2, k, v, OrdMap.mem_entries.mp hkv, hdec⟩

theorem Queued.due (h : Queued P db) {nowMs : UInt64} {due : List OutboxEntry}
    (hdue : (db.run (dequeueDue nowMs)).1 = .ok due) {e : OutboxEntry} (he : e ∈ due) : P e.payload.val := by
  obtain ⟨-, k, v, hv, hdec⟩ := mem_dequeueDue hdue he
  obtain ⟨e', rfl, hp⟩ := h k v hv
  rw [decodeEntry_enc] at hdec
  cases hdec
  exact hp

end Outbox

end ZeroSdk
