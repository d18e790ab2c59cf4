/-
The group message log. Abstractly a log maps a group and a message id to a
message; storing keeps the first message under an id and a receipt raises
a status, never lowers it (`Log.step`). The store simulates the log over
every run of sends, receives and receipts, whatever membership calls come
between (`run_holds`), and the log of a run is read off its events: what
was first stored under an id, with the greatest status of the receipts
since (`foldl_step_eq`). `group_log` puts the two together for
`list_messages`.
-/
import Mathlib.Data.List.Induction
import ZeroSdk.Group.Messages

namespace ZeroSdk.Group

/-! ## The abstract log -/

theorem GroupMessageStatus.rank_injective : Function.Injective rank := by
  intro a b h
  cases a <;> cases b <;> first | rfl | cases h

/-- Sent < Delivered < Read. -/
instance : LinearOrder GroupMessageStatus :=
  LinearOrder.lift' GroupMessageStatus.rank GroupMessageStatus.rank_injective

/-- What an operation does to the log. -/
inductive Event
  | stored (msg : GroupMessage)
  | receipt (groupId : GroupId) (id : GroupMessageId) (status : GroupMessageStatus)
  deriving DecidableEq

/-- The message stored under each group and id. -/
abbrev Log := GroupId → GroupMessageId → Option GroupMessage

/-- The message with its status raised to `s`. -/
def GroupMessage.raise (m : GroupMessage) (s : GroupMessageStatus) : GroupMessage :=
  { m with status := max m.status s }

/-- The first message under an id stays; a receipt raises its status. -/
def Log.step (log : Log) : Event → Log
  | .stored msg => fun g id =>
    match log g id with
    | some m => some m
    | none => if msg.groupId = g ∧ msg.id = id then some msg else none
  | .receipt g' id' s => fun g id => if g' = g ∧ id' = id then (log g id).map (·.raise s) else log g id

def Log.empty : Log := fun _ _ => none

/-- The first message stored for `id` in `g`, and the events after that. -/
def firstStored (g : GroupId) (id : GroupMessageId) : List Event → Option (GroupMessage × List Event)
  | [] => none
  | .stored msg :: rest => if msg.groupId = g ∧ msg.id = id then some (msg, rest) else firstStored g id rest
  | .receipt _ _ _ :: rest => firstStored g id rest

/-- The statuses of the receipts for `id` in `g`. -/
def receiptsFor (g : GroupId) (id : GroupMessageId) : List Event → List GroupMessageStatus
  | [] => []
  | .stored _ :: rest => receiptsFor g id rest
  | .receipt g' id' s :: rest => if g' = g ∧ id' = id then s :: receiptsFor g id rest else receiptsFor g id rest

theorem foldl_step_some (g : GroupId) (id : GroupMessageId) (events : List Event) {log : Log} {m : GroupMessage}
    (h : log g id = some m) :
    events.foldl Log.step log g id = some { m with status := (receiptsFor g id events).foldl max m.status } := by
  induction events generalizing log m with
  | nil => exact h
  | cons e events ih =>
    rw [List.foldl_cons]
    cases e with
    | stored msg => exact ih (by simp only [Log.step, h])
    | receipt g' id' s =>
      simp only [receiptsFor]
      split
      · next hg =>
        have hstep : log.step (.receipt g' id' s) g id = some (m.raise s) := by
          simp only [Log.step, hg, and_self, if_true, h, Option.map_some]
        exact ih hstep
      · next hg =>
        have hstep : log.step (.receipt g' id' s) g id = some m := by simp only [Log.step, hg, if_false, h]
        exact ih hstep

/-- The log of a sequence of events, read off the sequence. -/
theorem foldl_step_eq (g : GroupId) (id : GroupMessageId) (events : List Event) {log : Log} (h : log g id = none) :
    events.foldl Log.step log g id = (firstStored g id events).map fun (m, rest) =>
      { m with status := (receiptsFor g id rest).foldl max m.status } := by
  induction events generalizing log with
  | nil => exact h
  | cons e events ih =>
    rw [List.foldl_cons]
    cases e with
    | stored msg =>
      simp only [firstStored]
      split
      · next hg => exact foldl_step_some g id events (by simp only [Log.step, h, hg, and_self, if_true])
      · next hg => exact ih (by simp only [Log.step, h, hg, if_false])
    | receipt g' id' s => exact ih (by simp [Log.step, h])

theorem Log.step_own {log : Log} (h : ∀ g id m, log g id = some m → m.groupId = g ∧ m.id = id) (e : Event) :
    ∀ g id m, log.step e g id = some m → m.groupId = g ∧ m.id = id := by
  intro g id m hm
  cases e with
  | stored msg =>
    simp only [Log.step] at hm
    split at hm
    · next hlog => cases hm; exact h g id m hlog
    · split at hm
      · next hg => cases hm; exact hg
      · cases hm
  | receipt g' id' s =>
    simp only [Log.step] at hm
    split at hm
    · obtain ⟨m', hm', rfl⟩ := Option.map_eq_some_iff.mp hm
      exact h g id m' hm'
    · exact h g id m hm

/-! ## Operations and their events -/

/-- A call on the group's store, with the ids and clock readings it draws. -/
inductive Op
  | create (label : Str) (founders : Vec IdentityId) (groupId : GroupId) (ts : UInt64)
  | member (groupId : GroupId) (call : Call)
  | send (groupId : GroupId) (sender : IdentityId) (machine : MachineId) (text : Str) (id : GroupMessageId)
    (ts : UInt64)
  | receive (msg : GroupMessage)
  | receipt (r : GroupReceiptPayload)
  | markDelivered (groupId : GroupId) (id : GroupMessageId) (who : IdentityId) (machine : MachineId) (now : UInt64)
  | markRead (groupId : GroupId) (id : GroupMessageId) (who : IdentityId) (machine : MachineId) (now : UInt64)

/-- The store after the call. -/
def Op.step (db : ZeroDb) : Op → ZeroDb
  | .create label founders g ts => (db.run (createGroup label founders g ts)).2
  | .member g call => (db.run (call.prog g)).2
  | .send g sender machine text id ts => (db.run (sendMessage g sender machine text id ts)).2
  | .receive msg => (db.run (receiveMessage msg)).2
  | .receipt r => (db.run (processReceipt r)).2
  | .markDelivered g id who machine now => (db.run (Group.markDelivered g id who machine now)).2
  | .markRead g id who machine now => (db.run (Group.markRead g id who machine now)).2

/-- What the call means for the log: a message sent or received, whenever the
call returned `Ok`, or a receipt. -/
def Op.event (db : ZeroDb) : Op → Option Event
  | .create _ _ _ _ | .member _ _ => none
  | .send g sender machine text id ts =>
    match (db.run (sendMessage g sender machine text id ts)).1, manifestAt db g with
    | .ok _, .ok man => some (.stored ⟨id, g, sender, machine, text, man.mlsEpoch, ts, .sent⟩)
    | _, _ => none
  | .receive msg =>
    match (db.run (receiveMessage msg)).1 with
    | .ok _ => some (.stored msg)
    | .error _ => none
  | .receipt r => some (.receipt r.groupId r.messageId r.status)
  | .markDelivered g id _ _ _ => some (.receipt g id .delivered)
  | .markRead g id _ _ _ => some (.receipt g id .read)

/-- The store and the events after a run. -/
def runOps (db : ZeroDb) (ops : List Op) : ZeroDb × List Event :=
  ops.foldl (fun s op => (op.step s.1, s.2 ++ (op.event s.1).toList)) (db, [])

theorem runOps_concat (db : ZeroDb) (ops : List Op) (op : Op) :
    runOps db (ops ++ [op]) =
      (op.step (runOps db ops).1, (runOps db ops).2 ++ (op.event (runOps db ops).1).toList) := by
  rw [runOps, List.foldl_append]
  rfl

/-- The event stores a message under this id. -/
def Event.Stores (g : GroupId) (id : GroupMessageId) : Event → Prop
  | .stored msg => msg.groupId = g ∧ msg.id = id
  | .receipt _ _ _ => False

/-- Every id `send_message` draws is one that no message of the group had so
far in the run. -/
def FreshIds (db : ZeroDb) (ops : List Op) : Prop :=
  ∀ pre g sender machine text id ts post, ops = pre ++ .send g sender machine text id ts :: post →
    ∀ e ∈ (runOps db pre).2, ¬ e.Stores g id

/-- No message of any group is stored. -/
def NoMessages (db : ZeroDb) : Prop := ∀ g k, makeMsgPrefix g <+: k → db.get .groups k = none

/-! ## The store simulates the log -/

/-- The store holds the messages of the log, and under message prefixes
nothing else. -/
structure Holds (db : ZeroDb) (log : Log) : Prop where
  keyed : ∀ g k v, makeMsgPrefix g <+: k → db.get .groups k = some v → ∃ id, k = makeMsgKey g id
  content : ∀ g id, db.get .groups (makeMsgKey g id) = (log g id).map GroupMessage.codec.enc
  own : ∀ g id m, log g id = some m → m.groupId = g ∧ m.id = id

theorem NoMessages.holds {db : ZeroDb} (h : NoMessages db) : Holds db Log.empty where
  keyed g k v hk hv := by rw [h g k hk] at hv; cases hv
  content g id := h g _ (makeMsgPrefix_isPrefix_iff.mpr rfl)
  own _ _ _ h := by cases h

theorem Holds.put_manifest {db : ZeroDb} {log : Log} (h : Holds db log) (g : GroupId) (v : Bytes) :
    Holds (db.put .groups g.bytes.val v) log := by
  have hne : ∀ g' k, makeMsgPrefix g' <+: k → k ≠ g.bytes.val := by
    rintro g' k hk rfl
    exact not_msgPrefix_groupKey g' g hk
  refine ⟨fun g' k v' hk hv => ?_, fun g' id => ?_, h.own⟩
  · rw [ZeroDb.get_put_of_ne _ _ _ (hne g' k hk)] at hv
    exact h.keyed g' k v' hk hv
  · rw [ZeroDb.get_put_of_ne _ _ _ (hne g' _ (makeMsgPrefix_isPrefix_iff.mpr rfl))]
    exact h.content g' id

theorem Holds.put_message {db : ZeroDb} {log log' : Log} (h : Holds db log) {m : GroupMessage}
    (hlog : ∀ g id, log' g id = if m.groupId = g ∧ m.id = id then some m else log g id)
    (hown : ∀ g id m, log' g id = some m → m.groupId = g ∧ m.id = id) :
    Holds (db.put .groups (makeMsgKey m.groupId m.id) (GroupMessage.codec.enc m)) log' := by
  refine ⟨fun g k v hk hv => ?_, fun g id => ?_, hown⟩
  · by_cases heq : k = makeMsgKey m.groupId m.id
    · subst heq
      exact ⟨m.id, by rw [makeMsgPrefix_isPrefix_iff.mp hk]⟩
    · rw [ZeroDb.get_put_of_ne _ _ _ heq] at hv
      exact h.keyed g k v hk hv
  · rw [hlog, ZeroDb.get_put]
    by_cases heq : m.groupId = g ∧ m.id = id
    · obtain ⟨rfl, rfl⟩ := heq
      simp
    · rw [if_neg heq, if_neg, h.content]
      rintro ⟨-, hk⟩
      obtain ⟨rfl, rfl⟩ := makeMsgKey_inj hk
      exact heq ⟨rfl, rfl⟩

theorem Holds.store {db : ZeroDb} {log : Log} (h : Holds db log) {m : GroupMessage}
    (hnew : log m.groupId m.id = none) :
    Holds (db.put .groups (makeMsgKey m.groupId m.id) (GroupMessage.codec.enc m)) (log.step (.stored m)) := by
  refine h.put_message (fun g id => ?_) (Log.step_own h.own _)
  by_cases heq : m.groupId = g ∧ m.id = id
  · obtain ⟨rfl, rfl⟩ := heq
    simp [Log.step, hnew]
  · simp only [Log.step, heq, if_false]
    cases log g id <;> rfl

theorem Log.step_stored_of_some {log : Log} {m m' : GroupMessage} (h : log m.groupId m.id = some m') :
    log.step (.stored m) = log := by
  funext g id
  simp only [Log.step]
  split
  · next hlog => exact hlog.symm
  · next hlog =>
    split
    · next hg => obtain ⟨rfl, rfl⟩ := hg; rw [h] at hlog; cases hlog
    · exact hlog.symm

theorem isForwardTransition_iff {a b : GroupMessageStatus} : isForwardTransition a b = true ↔ a < b := by
  cases a <;> cases b <;> decide

theorem Holds.receipt {db : ZeroDb} {log : Log} (h : Holds db log) (r : GroupReceiptPayload) :
    Holds (db.run (processReceipt r)).2 (log.step (.receipt r.groupId r.messageId r.status)) := by
  have hkey := h.content r.groupId r.messageId
  cases hm : log r.groupId r.messageId with
  | none =>
    rw [hm] at hkey
    rw [run_processReceipt_none hkey]
    have hsame : log.step (.receipt r.groupId r.messageId r.status) = log := by
      funext g id
      simp only [Log.step]
      split
      · next hg => obtain ⟨rfl, rfl⟩ := hg; rw [hm]; rfl
      · rfl
    rw [hsame]
    exact h
  | some m =>
    rw [hm] at hkey
    obtain ⟨hg, hid⟩ := h.own _ _ _ hm
    rw [run_processReceipt_some hkey]
    split
    · next hfwd =>
      have hraise : { m with status := r.status } = m.raise r.status := by
        rw [GroupMessage.raise, max_eq_right (le_of_lt (isForwardTransition_iff.mp hfwd))]
      rw [hraise, ← hg, ← hid]
      refine Holds.put_message (m := m.raise r.status) h (fun g id => ?_) (Log.step_own h.own _)
      by_cases heq : m.groupId = g ∧ m.id = id
      · obtain ⟨rfl, rfl⟩ := heq
        rw [← hg, ← hid] at hm
        simp [Log.step, hm, GroupMessage.raise]
      · simp [Log.step, heq, GroupMessage.raise]
    · next hfwd =>
      have hsame : log.step (.receipt r.groupId r.messageId r.status) = log := by
        funext g id
        simp only [Log.step]
        split
        · next hg =>
          obtain ⟨rfl, rfl⟩ := hg
          rw [isForwardTransition_iff, not_lt] at hfwd
          rw [hm, Option.map_some, GroupMessage.raise, max_eq_left hfwd]
        · rfl
      rw [hsame]
      exact h

theorem step_holds {db : ZeroDb} {log : Log} (h : Holds db log) (op : Op)
    (hfresh : ∀ g sender machine text id ts, op = .send g sender machine text id ts → log g id = none) :
    Holds (op.step db) ((op.event db).toList.foldl Log.step log) := by
  cases op with
  | create label founders g ts =>
    rcases createGroup_cases db label founders g ts with hdb | ⟨man, hdb⟩
    · simpa [Op.step, Op.event, hdb] using h
    · simpa [Op.step, Op.event, hdb] using h.put_manifest g _
  | member g call =>
    simp only [Op.step, Op.event, Call.prog_eq, Option.toList, List.foldl_nil]
    rcases updateManifest_cases (Prod.mk.eta (p := db.run (updateManifest g call.decision))).symm with
      ⟨-, -, hdb⟩ | ⟨-, -, -, -, hdb⟩ | ⟨_, man, -, -, -, hdb⟩
    · rw [hdb]; exact h
    · rw [hdb]; exact h
    · rw [hdb]; exact h.put_manifest g _
  | send g sender machine text id ts =>
    rcases sendMessage_cases db g sender machine text id ts with ⟨e, hrun⟩ | ⟨man, hman, -, hrun⟩
    · simpa [Op.step, Op.event, hrun] using h
    · have hnew := hfresh g sender machine text id ts rfl
      simp only [Op.step, Op.event, hrun, hman, Option.toList, List.foldl_cons, List.foldl_nil]
      exact Holds.store (m := ⟨id, g, sender, machine, text, man.mlsEpoch, ts, .sent⟩) h hnew
  | receive msg =>
    have hkey := h.content msg.groupId msg.id
    rcases receiveMessage_cases db msg with ⟨e, hrun⟩ | ⟨hsome, hrun⟩ | ⟨-, hnone, hrun⟩
    · simpa [Op.step, Op.event, hrun] using h
    · rw [hkey, Option.isSome_map] at hsome
      obtain ⟨m, hm⟩ := Option.isSome_iff_exists.mp hsome
      simp only [Op.step, Op.event, hrun, Option.toList, List.foldl_cons, List.foldl_nil, Log.step_stored_of_some hm]
      exact h
    · rw [hkey, Option.map_eq_none_iff] at hnone
      simp only [Op.step, Op.event, hrun, Option.toList, List.foldl_cons, List.foldl_nil]
      exact h.store hnone
  | receipt r => exact h.receipt r
  | markDelivered g id who machine now =>
    simp only [Op.step, Group.markDelivered, run_markStatus]
    exact h.receipt ⟨id, g, who, machine, .delivered, now⟩
  | markRead g id who machine now =>
    simp only [Op.step, Group.markRead, run_markStatus]
    exact h.receipt ⟨id, g, who, machine, .read, now⟩

theorem firstStored_eq_none {g : GroupId} {id : GroupMessageId} {events : List Event}
    (h : ∀ e ∈ events, ¬ e.Stores g id) : firstStored g id events = none := by
  induction events with
  | nil => rfl
  | cons e events ih =>
    have ih := ih fun e he => h e (by simp [he])
    cases e with
    | stored msg => simpa [firstStored, ih, Event.Stores] using h (.stored msg) (by simp)
    | receipt g' id' s => exact ih

theorem run_holds {db : ZeroDb} (h : NoMessages db) (ops : List Op) (hf : FreshIds db ops) :
    Holds (runOps db ops).1 ((runOps db ops).2.foldl Log.step Log.empty) := by
  induction ops using List.reverseRecOn with
  | nil => exact h.holds
  | append_singleton ops op ih =>
    have hpre : FreshIds db ops := by
      intro pre g sender machine text id ts post hops
      exact hf pre g sender machine text id ts (post ++ [op]) (by rw [hops]; simp)
    rw [runOps_concat, List.foldl_append]
    refine step_holds (ih hpre) op fun g sender machine text id ts hop => ?_
    rw [foldl_step_eq g id _ rfl, firstStored_eq_none (hf ops g sender machine text id ts [] (by rw [hop]))]
    rfl

/-! ## Listing the log -/

/-- What the store holds of one group, as the list a scan of it decodes to. -/
theorem Holds.stores {db : ZeroDb} {log : Log} (h : Holds db log) (g : GroupId) :
    ∃ msgs, Stores db g msgs ∧ (msgs.map (·.id)).Nodup ∧
      ∀ m, m ∈ msgs ↔ m.groupId = g ∧ log g m.id = some m := by
  let entry : GroupMessage → Bytes × Bytes := fun m => (makeMsgKey m.groupId m.id, GroupMessage.codec.enc m)
  have hinj : Function.Injective entry := fun a b hab => Postcard.enc_injective _ (Prod.mk.inj hab).2
  obtain ⟨msgs, hmsgs, hin, hsorted⟩ : ∃ msgs : List GroupMessage,
      (db.cf .groups).select (makeMsgPrefix g).isPrefixOf = msgs.map entry ∧
      (∀ m, m ∈ msgs ↔ m.groupId = g ∧ log g m.id = some m) ∧ msgs.Pairwise fun a b => (entry a).1 < (entry b).1 := by
    refine OrdMap.select_eq_map hinj (fun k v hv hk => ?_) fun m ⟨hg, hm⟩ => ?_
    · obtain ⟨id, rfl⟩ := h.keyed g k v (List.isPrefixOf_iff_prefix.mp hk) hv
      have hc := (h.content g id).symm.trans hv
      obtain ⟨m, hm, rfl⟩ := Option.map_eq_some_iff.mp hc
      obtain ⟨rfl, rfl⟩ := h.own g id m hm
      exact ⟨m, rfl, rfl, hm⟩
    · subst hg
      have hc := h.content m.groupId m.id
      rw [hm] at hc
      exact ⟨hc, List.isPrefixOf_iff_prefix.mpr (makeMsgPrefix_isPrefix_iff.mpr rfl)⟩
  refine ⟨msgs, by rw [Stores, hmsgs, List.map_map]; rfl, ?_, hin⟩
  rw [List.Nodup, List.pairwise_map]
  refine hsorted.imp_of_mem fun {a b} ha hb hlt hid => absurd hlt ?_
  simp only [entry, ((hin a).mp ha).1, ((hin b).mp hb).1, hid]
  exact lt_irrefl _

/-- Strictly before in a page: later, or of the same millisecond with a
greater id. -/
def Newer (a b : GroupMessage) : Prop :=
  b.createdAtMs < a.createdAtMs ∨ b.createdAtMs = a.createdAtMs ∧ b.id < a.id

theorem insertionSort_newer {msgs : List GroupMessage} (hnd : (msgs.map (·.id)).Nodup) :
    (msgs.insertionSort msgOrder).Pairwise Newer := by
  have hsorted : (msgs.insertionSort msgOrder).Pairwise msgOrder := List.pairwise_insertionSort msgOrder _
  have hperm := List.perm_insertionSort msgOrder msgs
  have hne : (msgs.insertionSort msgOrder).Pairwise fun a b => a.id ≠ b.id :=
    List.pairwise_map.mp ((hperm.map _).nodup_iff.mpr hnd)
  refine (hsorted.and hne).imp fun {a b} hab => ?_
  rcases hab.1 with h | ⟨h, hid⟩
  · exact .inl h
  · exact .inr ⟨h, lt_of_le_of_ne hid (Ne.symm hab.2)⟩

/-- The log of the events has `m` under its id in `g`: it is the message
first sent or received under that id, with the greatest of its status then
and those of all receipts since. -/
def Logged (events : List Event) (g : GroupId) (m : GroupMessage) : Prop :=
  ∃ first since, firstStored g m.id events = some (first, since) ∧
    m = { first with status := (receiptsFor g m.id since).foldl max first.status }

theorem logged_iff {events : List Event} {g : GroupId} {m : GroupMessage} :
    Logged events g m ↔ events.foldl Log.step Log.empty g m.id = some m := by
  rw [foldl_step_eq g m.id _ rfl, Option.map_eq_some_iff]
  constructor
  · intro ⟨first, since, hfirst, hm⟩
    exact ⟨⟨first, since⟩, hfirst, hm.symm⟩
  · intro ⟨⟨first, since⟩, hfirst, hm⟩
    exact ⟨first, since, hfirst, hm.symm⟩

/-- What a run leaves under the prefix of a group. -/
theorem run_stores {db : ZeroDb} (h : NoMessages db) (ops : List Op) (hf : FreshIds db ops) (g : GroupId) :
    ∃ msgs, Stores (runOps db ops).1 g msgs ∧ (msgs.map (·.id)).Nodup ∧
      ∀ m, m ∈ msgs ↔ Logged (runOps db ops).2 g m := by
  have hholds := run_holds h ops hf
  obtain ⟨msgs, hstores, hnd, hmem⟩ := hholds.stores g
  refine ⟨msgs, hstores, hnd, fun m => ?_⟩
  rw [hmem, logged_iff]
  exact ⟨fun hm => hm.2, fun hm => ⟨(hholds.own g m.id m hm).1, hm⟩⟩

/-- **Group message log.** After any run of calls from a store without
messages, whose sends draw fresh ids, `list_messages` without a cursor and
with room for all returns the messages of the log, latest first and each
once. -/
theorem group_log {db : ZeroDb} (h : NoMessages db) (ops : List Op) (hf : FreshIds db ops) (g : GroupId) :
    ∃ l, (∀ limit, l.length ≤ limit → ((runOps db ops).1.run (listMessages g none limit)).1 = .ok l) ∧
      l.Pairwise Newer ∧ (l.map (·.id)).Nodup ∧ ∀ m, m ∈ l ↔ Logged (runOps db ops).2 g m := by
  obtain ⟨msgs, hstores, hnd, hmem⟩ := run_stores h ops hf g
  have hperm := List.perm_insertionSort msgOrder msgs
  refine ⟨msgs.insertionSort msgOrder, fun limit hlimit => ?_, insertionSort_newer hnd,
    (hperm.map _).nodup_iff.mpr hnd, fun m => by rw [hperm.mem_iff, hmem]⟩
  have hall : msgs.filter (isBefore none) = msgs := List.filter_eq_self.mpr fun _ _ => rfl
  rw [run_listMessages hstores, hall, List.take_of_length_le hlimit]

/-- A group is made, its Owner sends a message and receives one, and receipts
for the first come out of order and twice. -/
theorem group_log_receipts :
    let g : GroupId := ⟨Arr.fill 16 9⟩
    let who : IdentityId := ⟨Arr.fill 16 1⟩
    let peer : IdentityId := ⟨Arr.fill 16 2⟩
    let sent : GroupMessage := ⟨⟨Arr.fill 16 7⟩, g, who, ⟨Arr.fill 16 3⟩, Str.empty, 0, 6, .sent⟩
    let received : GroupMessage := ⟨⟨Arr.fill 16 8⟩, g, peer, ⟨Arr.fill 16 4⟩, Str.empty, 0, 5, .delivered⟩
    let read : GroupReceiptPayload := ⟨sent.id, g, peer, ⟨Arr.fill 16 4⟩, .read, 8⟩
    let ops := [Op.create Str.empty ⟨[who], by decide⟩ g 5, .send g who ⟨Arr.fill 16 3⟩ Str.empty sent.id 6,
      .receipt read, .receive received, .receipt { read with status := .delivered }, .receipt read]
    ∃ l, (∀ limit, l.length ≤ limit → ((runOps ZeroDb.empty ops).1.run (listMessages g none limit)).1 = .ok l) ∧
      { sent with status := .read } ∈ l ∧ received ∈ l ∧ l.Pairwise Newer := by
  intro g who peer sent received read ops
  have hno : NoMessages ZeroDb.empty := fun _ _ _ => rfl
  have hf : FreshIds ZeroDb.empty ops := by
    intro pre g' sender machine text id' ts post hops
    rcases pre with _ | ⟨o₁, _ | ⟨o₂, pre⟩⟩
    · simp [ops] at hops
    · simp only [ops, List.cons_append, List.cons.injEq] at hops
      intro e he
      rw [← hops.1] at he
      cases he
    · simp only [ops, List.cons_append, List.cons.injEq] at hops
      have hmem : Op.send g' sender machine text id' ts ∈ pre ++ Op.send g' sender machine text id' ts :: post := by simp
      rw [← hops.2.2] at hmem
      simp at hmem
  have hevents : (runOps ZeroDb.empty ops).2 = [.stored sent, .receipt g sent.id .read, .stored received,
      .receipt g sent.id .delivered, .receipt g sent.id .read] := by decide +kernel
  obtain ⟨l, hlist, hnewer, -, hmem⟩ := group_log hno ops hf g
  rw [hevents] at hmem
  refine ⟨l, hlist, (hmem _).mpr ?_, (hmem _).mpr ?_, hnewer⟩
  · exact ⟨sent, [.receipt g sent.id .read, .stored received, .receipt g sent.id .delivered, .receipt g sent.id .read],
      by decide +kernel, by decide +kernel⟩
  · exact ⟨received, [.receipt g sent.id .delivered, .receipt g sent.id .read], by decide +kernel, by decide +kernel⟩

end ZeroSdk.Group
