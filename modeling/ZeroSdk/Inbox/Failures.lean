/-
Updates of the inbox on a RocksDB that fails. `upsert` and `mark_read` scan
for the conversation's row, delete it and put the new one, and there is no
batch around the two writes: if the delete succeeds and the put fails, the
call returns the error and the conversation has left the index
(`failed_put_loses_conversation`). `update_atomic_iff` says that this is the
only way to lose anything: any other failure leaves the index as it was.

The index may hold anything, also values that do not decode: the scan stops
at those with an error, before any write.
-/
import ZeroSdk.Inbox.Concurrent
import ZeroSdk.Storage.Faults

namespace ZeroSdk.Inbox
open ZeroDb (handleFaulty)

/-! ## What an update finds -/

/-- The owner's rows, in the order of a scan. -/
def rows (db : ZeroDb) (s : InboxService) : KvPairs := (db.cf .inboxIndex).select s.pre.isPrefixOf

/-- `old`, stored under `key`, is the first of the owner's entries that is of
the conversation, and every row before it decodes. -/
def FirstRow (db : ZeroDb) (s : InboxService) (c : ConversationId) (key : Bytes) (old : InboxEntry) : Prop :=
  ∃ before value after, rows db s = before ++ (key, value) :: after ∧
    (∀ kv ∈ before, ∃ e, decodeEntry kv.2 = .ok e ∧ e.conversationId ≠ c) ∧
    decodeEntry value = .ok old ∧ old.conversationId = c

/-- The update writes over an entry it found. -/
def Update.Replaces : Update → InboxEntry → Prop
  | .upsert _, _ => True
  | .markRead _, old => old.unread > 0

/-- The delete and the put of an update. -/
def InboxService.replace (s : InboxService) (key : Bytes) (new : InboxEntry) : DbProg InboxError Unit := do
  (deleteRaw .inboxIndex key).mapErr .storage
  s.putEntry new

/-- What an update does after its scan. -/
def Update.afterScan (s : InboxService) : Update → Option (Bytes × InboxEntry) → DbProg InboxError Unit
  | .upsert entry, some (key, _) => s.replace key entry
  | .upsert entry, none => s.putEntry entry
  | .markRead _, some (key, old) => if old.unread > 0 then s.replace key { old with unread := 0 } else pure ()
  | .markRead _, none => pure ()

theorem Update.prog_eq (u : Update) (s : InboxService) :
    u.prog s = s.findRawEntry u.conversation >>= u.afterScan s := by
  cases u with
  | upsert entry =>
    refine congrArg (s.findRawEntry entry.conversationId >>= ·) (funext fun found => ?_)
    rcases found with _ | ⟨key, old⟩ <;> rfl
  | markRead r =>
    refine congrArg (s.findRawEntry r.conversationId >>= ·) (funext fun found => ?_)
    rcases found with _ | ⟨key, old⟩ <;> rfl

theorem findLoop_eq_some {c : ConversationId} {l : KvPairs} {key : Bytes} {old : InboxEntry} :
    findLoop c l = .ok (some (key, old)) ↔
      ∃ before value after, l = before ++ (key, value) :: after ∧
        (∀ kv ∈ before, ∃ e, decodeEntry kv.2 = .ok e ∧ e.conversationId ≠ c) ∧
        decodeEntry value = .ok old ∧ old.conversationId = c := by
  induction l with
  | nil => simp [findLoop]
  | cons kv l ih =>
    obtain ⟨k, v⟩ := kv
    rw [findLoop]
    constructor
    · intro h
      split at h
      · cases h
      · next entry hdec =>
        split at h
        · next hc =>
          cases h
          exact ⟨[], v, l, rfl, fun _ h => (by cases h), hdec, hc⟩
        · next hc =>
          obtain ⟨before, value, after, rfl, hbefore, hrow⟩ := ih.mp h
          refine ⟨(k, v) :: before, value, after, rfl, fun kv hkv => ?_, hrow⟩
          rcases List.mem_cons.mp hkv with rfl | hmem
          · exact ⟨entry, hdec, hc⟩
          · exact hbefore kv hmem
    · rintro ⟨before, value, after, heq, hbefore, hdec, hc⟩
      cases before with
      | nil =>
        cases heq
        simp only [hdec, hc, if_true]
      | cons kv before =>
        obtain ⟨rfl, rfl⟩ := List.cons.inj heq
        obtain ⟨e, he, hne⟩ := hbefore _ List.mem_cons_self
        simp only [he, hne, if_false]
        exact ih.mpr ⟨before, value, after, rfl, fun kv hkv => hbefore kv (List.mem_cons_of_mem _ hkv), hdec, hc⟩

theorem FirstRow.stored {db : ZeroDb} {s : InboxService} {c : ConversationId} {key : Bytes} {old : InboxEntry}
    (h : FirstRow db s c key old) : ∃ value, db.get .inboxIndex key = some value := by
  obtain ⟨before, value, after, hrows, -⟩ := h
  have hmem : (key, value) ∈ rows db s := by
    rw [hrows]
    exact List.mem_append_right _ List.mem_cons_self
  exact ⟨value, OrdMap.mem_entries.mp (List.mem_of_mem_filter hmem)⟩

/-! ## Runs -/

section Runs
variable {s : InboxService} {u : Update} {db : ZeroDb} {faults : Faults}

theorem run_findRawEntry_past (h : ScansPast db faults .inboxIndex s.pre) (c : ConversationId) :
    (s.findRawEntry c).run handleFaulty (db, faults) = (findLoop c (rows db s), (db, faults.drop 1)) := by
  have hscan : (prefixScanRaw .inboxIndex (ownerPrefix s.identityId s.machineId)).run handleFaulty (db, faults) =
      (.ok (rows db s), (db, faults.drop 1)) := run_prefixScanRaw_past h
  unfold InboxService.findRawEntry
  rw [Prog.run_bind, Prog.run_mapErr, hscan]
  rfl

theorem run_findRawEntry_failed (h : ¬ ScansPast db faults .inboxIndex s.pre) (c : ConversationId) :
    ∃ e, (s.findRawEntry c).run handleFaulty (db, faults) = (.error e, (db, faults.drop 1)) := by
  obtain ⟨e, hscan⟩ := run_prefixScanRaw_failed h
  have hscan : (prefixScanRaw .inboxIndex (ownerPrefix s.identityId s.machineId)).run handleFaulty (db, faults) =
      (.error (.rocks e), (db, faults.drop 1)) := hscan
  unfold InboxService.findRawEntry
  rw [Prog.run_bind, Prog.run_mapErr, hscan]
  exact ⟨.storage (.rocks e), rfl⟩

theorem run_putEntry_cases (s : InboxService) (entry : InboxEntry) (db : ZeroDb) (faults : Faults) :
    (faults.nth 0 ≠ none ∧ ∃ e, (s.putEntry entry).run handleFaulty (db, faults) = (.error e, (db, faults.drop 1))) ∨
    (faults.nth 0 = none ∧ ∃ st, (s.putEntry entry).run handleFaulty (db, faults) = (.ok (), st)) := by
  unfold InboxService.putEntry
  rw [Prog.run_mapErr]
  cases h : faults.nth 0 with
  | some f =>
    rw [run_putRaw_some h]
    exact .inl ⟨by simp, .storage (.rocks f.error), rfl⟩
  | none =>
    rw [run_putRaw_none h]
    exact .inr ⟨rfl, _, rfl⟩

/-- A replacement fails at its delete and changes nothing, fails at its put
with the old row gone, or succeeds. -/
theorem run_replace_cases (s : InboxService) (key : Bytes) (new : InboxEntry) (db : ZeroDb) (faults : Faults) :
    (faults.nth 0 ≠ none ∧ ∃ e fs, (s.replace key new).run handleFaulty (db, faults) = (.error e, (db, fs))) ∨
    (faults.nth 0 = none ∧ faults.nth 1 ≠ none ∧
      ∃ e fs, (s.replace key new).run handleFaulty (db, faults) = (.error e, (db.delete .inboxIndex key, fs))) ∨
    (faults.nth 0 = none ∧ faults.nth 1 = none ∧
      ∃ st, (s.replace key new).run handleFaulty (db, faults) = (.ok (), st)) := by
  have hrun : (s.replace key new).run handleFaulty (db, faults) = _ := Prog.run_bind _ _ _ _
  rw [Prog.run_mapErr] at hrun
  cases h₀ : faults.nth 0 with
  | some f =>
    rw [run_deleteRaw_some h₀] at hrun
    exact .inl ⟨by simp, _, _, hrun⟩
  | none =>
    rw [run_deleteRaw_none h₀] at hrun
    have hnth : Faults.nth (faults.drop 1) 0 = faults.nth 1 := Faults.nth_drop_zero faults 1
    rcases run_putEntry_cases s new (db.delete .inboxIndex key) (faults.drop 1) with ⟨h₁, e, hput⟩ | ⟨h₁, st, hput⟩
    · rw [hnth] at h₁
      exact .inr (.inl ⟨rfl, h₁, e, _, hrun.trans hput⟩)
    · rw [hnth] at h₁
      exact .inr (.inr ⟨rfl, h₁, st, hrun.trans hput⟩)

/-- What an update does once it has found the row of its conversation. -/
theorem run_update_found (u : Update) {key : Bytes} {old : InboxEntry} {fs : Faults}
    (hfind : (s.findRawEntry u.conversation).run handleFaulty (db, faults) = (.ok (some (key, old)), (db, fs))) :
    (¬ u.Replaces old ∧ (u.prog s).run handleFaulty (db, faults) = (.ok (), (db, fs))) ∨
    (u.Replaces old ∧ ∃ new, (u.prog s).run handleFaulty (db, faults) =
      (s.replace key new).run handleFaulty (db, fs)) := by
  rw [u.prog_eq, Prog.run_bind_ok _ hfind]
  cases u with
  | upsert entry => exact .inr ⟨trivial, entry, rfl⟩
  | markRead r =>
    by_cases hu : old.unread > 0
    · refine .inr ⟨hu, { old with unread := 0 }, ?_⟩
      rw [Update.afterScan, if_pos hu]
    · refine .inl ⟨hu, ?_⟩
      rw [Update.afterScan, if_neg hu]
      rfl

/-- What an update does that has found no row. -/
theorem run_update_none (u : Update) {fs : Faults}
    (hfind : (s.findRawEntry u.conversation).run handleFaulty (db, faults) = (.ok none, (db, fs))) :
    (∃ st, (u.prog s).run handleFaulty (db, faults) = (.ok (), st)) ∨
      ∃ e fs', (u.prog s).run handleFaulty (db, faults) = (.error e, (db, fs')) := by
  rw [u.prog_eq, Prog.run_bind_ok _ hfind]
  cases u with
  | upsert entry =>
    rcases run_putEntry_cases s entry db fs with ⟨-, e, hput⟩ | ⟨-, st, hput⟩
    · exact .inr ⟨e, _, hput⟩
    · exact .inl ⟨st, hput⟩
  | markRead r => exact .inl ⟨_, rfl⟩

theorem run_update_error (u : Update) {e : InboxError} {fs : Faults}
    (hfind : (s.findRawEntry u.conversation).run handleFaulty (db, faults) = (.error e, (db, fs))) :
    (u.prog s).run handleFaulty (db, faults) = (.error e, (db, fs)) := by
  rw [u.prog_eq, Prog.run_bind, hfind]

end Runs

/-! ## Atomicity -/

/-- The row of the conversation is found and deleted, and the new one is not
put. -/
structure Loses (s : InboxService) (u : Update) (db : ZeroDb) (faults : Faults) : Prop where
  scanned : ScansPast db faults .inboxIndex s.pre
  row : ∃ key old, FirstRow db s u.conversation key old ∧ u.Replaces old
  deleted : faults.nth 1 = none
  notPut : faults.nth 2 ≠ none

/-- Every run of an update: it succeeds, it fails and changes nothing, or it
loses the row. -/
theorem run_update_cases (s : InboxService) (u : Update) (db : ZeroDb) (faults : Faults) :
    (¬ Loses s u db faults ∧ ((∃ st, (u.prog s).run handleFaulty (db, faults) = (.ok (), st)) ∨
      ∃ e fs, (u.prog s).run handleFaulty (db, faults) = (.error e, (db, fs)))) ∨
    (Loses s u db faults ∧ ∃ key old e fs, FirstRow db s u.conversation key old ∧
      (u.prog s).run handleFaulty (db, faults) = (.error e, (db.delete .inboxIndex key, fs))) := by
  by_cases hscan : ScansPast db faults .inboxIndex s.pre
  · have hfind := run_findRawEntry_past hscan u.conversation
    cases hloop : findLoop u.conversation (rows db s) with
    | error e =>
      rw [hloop] at hfind
      refine .inl ⟨fun h => ?_, .inr ⟨e, _, run_update_error u hfind⟩⟩
      obtain ⟨key, old, hrow, -⟩ := h.row
      rw [findLoop_eq_some.mpr hrow] at hloop
      cases hloop
    | ok found =>
      rw [hloop] at hfind
      cases found with
      | none =>
        refine .inl ⟨fun h => ?_, run_update_none u hfind⟩
        obtain ⟨key, old, hrow, -⟩ := h.row
        rw [findLoop_eq_some.mpr hrow] at hloop
        cases hloop
      | some row =>
        obtain ⟨key, old⟩ := row
        have hrow : FirstRow db s u.conversation key old := findLoop_eq_some.mp hloop
        rcases run_update_found u hfind with ⟨hkeep, hrun⟩ | ⟨hrep, new, hrun⟩
        · refine .inl ⟨fun h => ?_, .inl ⟨_, hrun⟩⟩
          obtain ⟨key', old', hrow', hrep⟩ := h.row
          rw [findLoop_eq_some.mpr hrow'] at hloop
          cases hloop
          exact hkeep hrep
        · have hnth : ∀ i, Faults.nth (faults.drop 1) i = faults.nth (1 + i) := Faults.nth_drop faults 1
          rcases run_replace_cases s key new db (faults.drop 1) with
            ⟨h₁, e, fs, hcase⟩ | ⟨h₁, h₂, e, fs, hcase⟩ | ⟨-, h₂, st, hcase⟩
          · rw [hnth] at h₁
            exact .inl ⟨fun h => h₁ h.deleted, .inr ⟨e, fs, hrun.trans hcase⟩⟩
          · rw [hnth] at h₁ h₂
            exact .inr ⟨⟨hscan, ⟨key, old, hrow, hrep⟩, h₁, h₂⟩, key, old, e, fs, hrow, hrun.trans hcase⟩
          · rw [hnth] at h₂
            exact .inl ⟨fun h => h.notPut h₂, .inl ⟨st, hrun.trans hcase⟩⟩
  · obtain ⟨e, hfind⟩ := run_findRawEntry_failed hscan u.conversation
    exact .inl ⟨fun h => hscan h.scanned, .inr ⟨e, _, run_update_error u hfind⟩⟩

/-- **When an update is atomic on error.** For every content of the index and
every pattern of failures, an update that returns an error has left the index
as it was, exactly if it does not delete the row of its conversation and then
fail to put the new one. -/
theorem update_atomic_iff (s : InboxService) (u : Update) (db : ZeroDb) (faults : Faults) :
    (∀ e st, (u.prog s).run handleFaulty (db, faults) = (.error e, st) →
      st.1.cf .inboxIndex = db.cf .inboxIndex) ↔ ¬ Loses s u db faults := by
  rcases run_update_cases s u db faults with ⟨hkeeps, hrun⟩ | ⟨hloses, key, old, e, fs, hrow, hrun⟩
  · refine iff_of_true (fun e st hst => ?_) hkeeps
    rcases hrun with ⟨st', hok⟩ | ⟨e', fs, herr⟩
    · rw [hok] at hst
      cases hst
    · rw [herr] at hst
      cases hst
      rfl
  · refine iff_of_false (fun h => ?_) fun h => h hloses
    obtain ⟨value, hvalue⟩ := hrow.stored
    have hsame := congrArg (OrdMap.get · key) (h e _ hrun)
    have hgone : (db.delete .inboxIndex key).get .inboxIndex key = none := by
      rw [ZeroDb.get_delete, if_pos ⟨rfl, rfl⟩]
    have hstill : (db.delete .inboxIndex key).get .inboxIndex key = db.get .inboxIndex key := hsame
    rw [hgone, hvalue] at hstill
    cases hstill

/-- An owner with one unread conversation. -/
def reader : InboxService := ⟨⟨Arr.fill 16 1⟩, ⟨Arr.fill 16 1⟩⟩

def unreadEntry : InboxEntry := ⟨⟨Arr.fill 32 7⟩, .dm, 5, 3, ⟨Arr.fill 16 2⟩, Str.empty⟩

/-- The put fails after the delete: of `upsert` with a newer message, and of
`mark_read`. Either call returns an error, and the conversation is gone. -/
theorem failed_put_loses_conversation :
    let db := (ZeroDb.empty.run (reader.upsert unreadEntry)).2
    (db.run (reader.listInbox none)).1 = .ok [unreadEntry] ∧
      ∀ u ∈ [Update.upsert { unreadEntry with lastTs := 6, unread := 4 }, .markRead ⟨unreadEntry.conversationId, .dm⟩],
        let r := (u.prog reader).run handleFaulty (db, [none, none, some ⟨⟨"IO error"⟩, 0⟩])
        r.1 = .error (.storage (.rocks ⟨"IO error"⟩)) ∧ (r.2.1.run (reader.listInbox none)).1 = .ok [] := by
  decide +kernel

end ZeroSdk.Inbox
