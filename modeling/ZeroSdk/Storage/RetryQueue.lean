/-
The outbox refines a bounded retry queue: an entry for each sector, added by
`enqueue` unless its sector is queued or the queue is full, rescheduled by
`mark_attempted`, taken out by `remove` (`Queue.step`). Over any run of the
three through handles of any capacities, the outbox returns what the queue
returns and holds the queue's entries, each under its own id (`run_stores`),
and `dequeue_due` lists the due ones by time, then by id.
-/
import Mathlib.Data.List.Induction
import Mathlib.Data.Set.Card
import ZeroSdk.Storage.Outbox

namespace ZeroSdk.Outbox

/-! ## The queue -/

/-- The entry queued for each sector. -/
abbrev Queue := SectorId → Option OutboxEntry

/-- How many sectors are queued. -/
noncomputable def Queue.count (q : Queue) : Nat := {id | (q id).isSome}.ncard

/-- A call on the outbox; `enqueue` goes through a handle. -/
inductive Op
  | enqueue (outbox : Outbox) (entry : OutboxEntry)
  | markAttempted (id : SectorId) (nextAttemptMs : UInt64)
  | remove (id : SectorId)

def Op.prog : Op → DbProg StorageError Unit
  | .enqueue outbox entry => outbox.enqueue entry
  | .markAttempted id nextAttemptMs => Outbox.markAttempted id nextAttemptMs
  | .remove id => Outbox.remove id

/-- An entry after a failed delivery. -/
def rescheduled (e : OutboxEntry) (nextAttemptMs : UInt64) : OutboxEntry :=
  { e with attemptCount := saturatingSucc e.attemptCount, nextAttemptMs }

/-- What a call returns, and the queue it leaves. -/
noncomputable def Queue.step (q : Queue) : Op → Except StorageError Unit × Queue
  | .enqueue outbox entry =>
    if (q entry.sectorId).isSome then (.ok (), q)
    else if outbox.capacity ≤ q.count then (.error .outboxFull, q)
    else (.ok (), Function.update q entry.sectorId (some entry))
  | .markAttempted id nextAttemptMs =>
    match q id with
    | none => (.error (.sectorNotFound id), q)
    | some e => (.ok (), Function.update q id (some (rescheduled e nextAttemptMs)))
  | .remove id => (.ok (), Function.update q id none)

noncomputable def Queue.run (ops : List Op) : Queue := ops.foldl (fun q op => (q.step op).2) fun _ => none

/-- The database after a run. -/
def runOps (db : ZeroDb) (ops : List Op) : ZeroDb := ops.foldl (fun db op => (db.run op.prog).2) db

/-! ## What is stored -/

/-- The outbox holds the queue's entries under their ids, and nothing else. -/
structure Stores (db : ZeroDb) (q : Queue) : Prop where
  keyed : ∀ k v, db.get .outbox k = some v → ∃ id : SectorId, k = id.bytes.val
  content : ∀ id, db.get .outbox id.bytes.val = (q id).map OutboxEntry.codec.enc
  own : ∀ id e, q id = some e → e.sectorId = id

theorem sectorKey_inj {a b : SectorId} : a.bytes.val = b.bytes.val ↔ a = b := by
  cases a; cases b; simp [Subtype.ext_iff]

variable {db : ZeroDb} {q : Queue}

theorem Stores.empty (h : db.cf .outbox = .empty) : Stores db fun _ => none := by
  have hget : ∀ k, db.get .outbox k = none := by
    intro k
    rw [ZeroDb.get, h, OrdMap.get_empty]
  refine ⟨fun k v hv => ?_, fun id => hget _, fun id e he => by cases he⟩
  rw [hget] at hv
  cases hv

theorem Stores.put (h : Stores db q) {id : SectorId} {e : OutboxEntry} (he : e.sectorId = id) :
    Stores (db.put .outbox id.bytes.val (OutboxEntry.codec.enc e)) (Function.update q id (some e)) := by
  refine ⟨fun k v hv => ?_, fun id' => ?_, fun id' e' he' => ?_⟩
  · by_cases hk : k = id.bytes.val
    · exact ⟨id, hk⟩
    · rw [ZeroDb.get_put_of_ne _ _ _ hk] at hv
      exact h.keyed k v hv
  · by_cases hid : id' = id
    · subst hid
      rw [ZeroDb.get_put_self, Function.update_self, Option.map_some]
    · rw [ZeroDb.get_put_of_ne _ _ _ (mt sectorKey_inj.mp hid), Function.update_of_ne hid]
      exact h.content id'
  · by_cases hid : id' = id
    · subst hid
      rw [Function.update_self] at he'
      cases he'
      exact he
    · rw [Function.update_of_ne hid] at he'
      exact h.own id' e' he'

theorem Stores.delete (h : Stores db q) (id : SectorId) :
    Stores (db.delete .outbox id.bytes.val) (Function.update q id none) := by
  refine ⟨fun k v hv => ?_, fun id' => ?_, fun id' e' he' => ?_⟩
  · rw [ZeroDb.get_delete] at hv
    split at hv
    · cases hv
    · exact h.keyed k v hv
  · rw [ZeroDb.get_delete]
    by_cases hid : id' = id
    · subst hid
      rw [if_pos ⟨rfl, rfl⟩, Function.update_self, Option.map_none]
    · rw [if_neg fun hk => hid (sectorKey_inj.mp hk.2), Function.update_of_ne hid]
      exact h.content id'
  · by_cases hid : id' = id
    · subst hid
      rw [Function.update_self] at he'
      cases he'
    · rw [Function.update_of_ne hid] at he'
      exact h.own id' e' he'

/-- The key and the value of an entry. -/
def pair (e : OutboxEntry) : Bytes × Bytes := (e.sectorId.bytes.val, OutboxEntry.codec.enc e)

theorem Stores.lists (h : Stores db q) :
    ∃ l : List OutboxEntry, (db.cf .outbox).entries = l.map pair ∧ (∀ e, e ∈ l ↔ q e.sectorId = some e) ∧
      l.Pairwise fun a b => a.sectorId < b.sectorId := by
  have hinj : Function.Injective pair := fun a b hab => Postcard.enc_injective _ (Prod.mk.inj hab).2
  have hall : (db.cf .outbox).select (fun _ => true) = (db.cf .outbox).entries :=
    List.filter_eq_self.mpr fun _ _ => rfl
  rw [← hall]
  refine OrdMap.select_eq_map hinj (fun k v hv _ => ?_) fun e he => ⟨?_, rfl⟩
  · obtain ⟨id, rfl⟩ := h.keyed k v hv
    obtain ⟨e, he, rfl⟩ := Option.map_eq_some_iff.mp ((h.content id).symm.trans hv)
    obtain rfl := h.own id e he
    exact ⟨e, rfl, he⟩
  · have hc := h.content e.sectorId
    rw [he] at hc
    exact hc

theorem Stores.count (h : Stores db q) : (db.cf .outbox).entries.length = q.count := by
  obtain ⟨l, hl, hmem, hsorted⟩ := h.lists
  have hnd : (l.map (·.sectorId)).Nodup := by
    rw [List.Nodup, List.pairwise_map]
    exact hsorted.imp fun {a b} hab => ne_of_lt hab
  have hset : {id | (q id).isSome} = ↑(l.map (·.sectorId)).toFinset := by
    ext id
    simp only [Set.mem_ofPred_eq, List.coe_toFinset, List.mem_map, Option.isSome_iff_exists]
    constructor
    · intro ⟨e, he⟩
      obtain rfl := h.own id e he
      exact ⟨e, (hmem e).mpr he, rfl⟩
    · intro ⟨e, he, hid⟩
      exact ⟨e, hid ▸ (hmem e).mp he⟩
  rw [Queue.count, hset, Set.ncard_coe_finset, List.toFinset_card_of_nodup hnd, List.length_map, hl, List.length_map]

/-! ## One call -/

theorem step_stores (h : Stores db q) (op : Op) :
    (db.run op.prog).1 = (q.step op).1 ∧ Stores (db.run op.prog).2 (q.step op).2 := by
  cases op with
  | enqueue outbox entry =>
    simp only [Op.prog, Queue.step, run_enqueue, h.content, Option.isSome_map, h.count]
    split
    · exact ⟨rfl, h⟩
    split
    · exact ⟨rfl, h⟩
    · exact ⟨rfl, h.put rfl⟩
  | markAttempted id nextAttemptMs =>
    simp only [Op.prog, Queue.step, markAttempted, Prog.run_bind, run_getRaw, h.content]
    cases he : q id with
    | none => exact ⟨rfl, h⟩
    | some e =>
      simp only [Option.map_some, Prog.run_okOr_some, Prog.run_lift, decodeEntry_enc]
      exact ⟨rfl, h.put (e := rescheduled e nextAttemptMs) (h.own id e he)⟩
  | remove id => exact ⟨rfl, h.delete id⟩

theorem run_stores (h : db.cf .outbox = .empty) (ops : List Op) : Stores (runOps db ops) (Queue.run ops) := by
  induction ops using List.reverseRecOn with
  | nil => exact .empty h
  | append_singleton ops op ih =>
    rw [runOps, Queue.run, List.foldl_append, List.foldl_append]
    exact (step_stores ih op).2

/-! ## Due entries -/

/-- By time, then by id. -/
def Sooner (a b : OutboxEntry) : Prop :=
  a.nextAttemptMs < b.nextAttemptMs ∨ a.nextAttemptMs = b.nextAttemptMs ∧ a.sectorId < b.sectorId

theorem scanAllLoop_map (l : List OutboxEntry) : scanAllLoop ((l.map pair).map .ok) = .ok l := by
  induction l with
  | nil => rfl
  | cons e l ih => simp only [List.map_cons, pair, scanAllLoop, decodeEntry_enc, ih, Except.map]

/-- `dequeue_due` sorts by time alone; the scan it sorts is by id already. -/
theorem Stores.due (h : Stores db q) (nowMs : UInt64) :
    ∃ due, db.run (dequeueDue nowMs) = (.ok due, db) ∧
      (∀ e, e ∈ due ↔ q e.sectorId = some e ∧ e.nextAttemptMs ≤ nowMs) ∧ due.Pairwise Sooner := by
  obtain ⟨l, hl, hmem, hsorted⟩ := h.lists
  have hloop := scanAllLoop_map l
  rw [← hl] at hloop
  refine ⟨(l.filter fun e => e.nextAttemptMs ≤ nowMs).insertionSort fun a b => a.nextAttemptMs ≤ b.nextAttemptMs,
    ?_, fun e => ?_, ?_⟩
  · simp only [dequeueDue, scanAll, Prog.run_bind, run_iteratorCf, ZeroDb.items, Prog.run_lift, hloop, Prog.run_pure]
  · rw [List.mem_insertionSort, List.mem_filter, hmem, decide_eq_true_eq]
  · have hstable := OrdMap.insertionSort_stable (r := fun a b : OutboxEntry => a.nextAttemptMs ≤ b.nextAttemptMs)
      (fun _ _ => UInt64.le_total _ _) (fun _ _ _ => UInt64.le_trans)
      (hsorted.sublist (List.filter_sublist (p := fun e => decide (e.nextAttemptMs ≤ nowMs))))
    refine hstable.imp fun {a b} hab => ?_
    obtain ⟨hle, hid⟩ := hab
    by_cases hge : b.nextAttemptMs ≤ a.nextAttemptMs
    · exact .inr ⟨UInt64.le_antisymm hle hge, hid hge⟩
    · exact .inl (UInt64.not_le.mp hge)

theorem Sooner.ne {a b : OutboxEntry} (h : Sooner a b) : a ≠ b := by
  rintro rfl
  rcases h with h | ⟨-, h⟩
  · exact UInt64.lt_irrefl _ h
  · exact lt_irrefl _ h

/-! ## Capacity -/

theorem Queue.count_update_le (q : Queue) (id : SectorId) (e : OutboxEntry) :
    Queue.count (Function.update q id (some e)) ≤ q.count + 1 := by
  have hset : {id' | (Function.update q id (some e) id').isSome} = insert id {id' | (q id').isSome} := by
    ext id'
    by_cases hid : id' = id
    · subst hid
      simp
    · simp [hid]
  rw [Queue.count, hset]
  exact Set.ncard_insert_le _ _

/-- An `enqueue` changes nothing, or leaves at most `capacity` entries. -/
theorem Stores.enqueue_bounded (h : Stores db q) (outbox : Outbox) (entry : OutboxEntry) :
    (db.run (outbox.enqueue entry)).2 = db ∨
      ((db.run (outbox.enqueue entry)).2.cf .outbox).entries.length ≤ outbox.capacity := by
  rw [run_enqueue]
  split
  · exact .inl rfl
  split
  · exact .inl rfl
  · next hroom =>
    have hput := (h.put (rfl : entry.sectorId = entry.sectorId)).count
    have hle := Queue.count_update_le q entry.sectorId entry
    rw [h.count] at hroom
    refine .inr (hput.trans_le ?_)
    omega

/-- What holds of an outbox whose queue is `q`. -/
structure Refines (db : ZeroDb) (q : Queue) : Prop where
  /-- What is stored is the entries of the queue, one for a sector and each
  under its own id. -/
  stored : ∀ k v, db.get .outbox k = some v ↔ ∃ e, q e.sectorId = some e ∧ pair e = (k, v)
  own : ∀ id e, q id = some e → e.sectorId = id
  count : (db.run count).1 = .ok q.count
  /-- The next call returns what the queue returns. -/
  step : ∀ op, (db.run op.prog).1 = (q.step op).1
  /-- A sector that is queued stays as it is, also at capacity. -/
  present : ∀ (outbox : Outbox) (entry : OutboxEntry), (q entry.sectorId).isSome →
    db.run (outbox.enqueue entry) = (.ok (), db)
  full : ∀ (outbox : Outbox) (entry : OutboxEntry), (db.run (outbox.enqueue entry)).1 = .error .outboxFull ↔
    q entry.sectorId = none ∧ outbox.capacity ≤ q.count
  full_unchanged : ∀ (outbox : Outbox) (entry : OutboxEntry), (db.run (outbox.enqueue entry)).1 = .error .outboxFull →
    (db.run (outbox.enqueue entry)).2 = db
  bounded : ∀ (outbox : Outbox) (entry : OutboxEntry), (db.run (outbox.enqueue entry)).2 = db ∨
    ((db.run (outbox.enqueue entry)).2.cf .outbox).entries.length ≤ outbox.capacity
  due : ∀ nowMs, ∃ due, db.run (dequeueDue nowMs) = (.ok due, db) ∧
    (∀ e, e ∈ due ↔ q e.sectorId = some e ∧ e.nextAttemptMs ≤ nowMs) ∧ due.Nodup ∧ due.Pairwise Sooner

theorem Stores.refines (h : Stores db q) : Refines db q where
  stored k v := by
    constructor
    · intro hv
      obtain ⟨id, rfl⟩ := h.keyed k v hv
      obtain ⟨e, he, rfl⟩ := Option.map_eq_some_iff.mp ((h.content id).symm.trans hv)
      obtain rfl := h.own id e he
      exact ⟨e, he, rfl⟩
    · rintro ⟨e, he, hp⟩
      cases hp
      rw [h.content, he, Option.map_some]
  own := h.own
  count := by rw [run_count, h.count]
  step op := (step_stores h op).1
  present outbox entry hq := by rw [run_enqueue, h.content, Option.isSome_map, if_pos hq]
  full outbox entry := by
    have hres := (step_stores h (.enqueue outbox entry)).1
    simp only [Op.prog, Queue.step] at hres
    rw [hres]
    cases q entry.sectorId with
    | some e => simp
    | none => by_cases hfull : outbox.capacity ≤ q.count <;> simp [hfull]
  full_unchanged outbox entry := by
    rw [run_enqueue]
    split
    · intro _
      rfl
    split
    · intro _
      rfl
    · intro herr
      cases herr
  bounded := h.enqueue_bounded
  due nowMs := by
    obtain ⟨due, hrun, hmem, hsorted⟩ := h.due nowMs
    exact ⟨due, hrun, hmem, hsorted.imp Sooner.ne, hsorted⟩

/-- **The outbox refines a bounded retry queue**, over every run of
`enqueue`, `mark_attempted` and `remove` with any arguments, through handles
of any capacities on one database. -/
theorem outbox_refines_queue (h : db.cf .outbox = .empty) (ops : List Op) :
    Refines (runOps db ops) (Queue.run ops) := (run_stores h ops).refines

/-- Two sectors are queued, a third finds no room, the second is rescheduled
to the time of the first and comes after it. -/
theorem outbox_refines_queue_two :
    let entry : UInt8 → UInt64 → OutboxEntry := fun b next => ⟨⟨Arr.fill 16 b⟩, Vec.empty, 0, next, 1⟩
    let ops := [Op.enqueue ⟨2⟩ (entry 7 5), .enqueue ⟨2⟩ (entry 8 3), .enqueue ⟨2⟩ (entry 9 3),
      .markAttempted ⟨Arr.fill 16 8⟩ 5]
    Refines (runOps ZeroDb.empty ops) (Queue.run ops) ∧
      ((runOps ZeroDb.empty ops).run (dequeueDue 5)).1 = .ok [entry 7 5, { entry 8 5 with attemptCount := 1 }] := by
  intro entry ops
  exact ⟨outbox_refines_queue rfl ops, by decide +kernel⟩

end ZeroSdk.Outbox
