/-
The inbox index refines a map from owners and conversations to entries: an
upsert sets an entry and `mark_read` clears its unread count. Over any run
of the two by any services on one database, an owner's stored pairs are
exactly its entries of the map, each under one key (`run_holds`), so its
lists and totals are read off the map, and what one owner does is nothing
to another (`inbox_refines_map`).
-/
import Mathlib.Data.List.Induction
import ZeroSdk.Inbox.Service

namespace ZeroSdk.Inbox

/-! ## The map -/

/-- A call on the index. -/
inductive Op
  | upsert (s : InboxService) (entry : InboxEntry)
  | markRead (s : InboxService) (conversationRef : ConversationRef)
  deriving DecidableEq

def Op.service : Op → InboxService
  | .upsert s _ | .markRead s _ => s

/-- The conversation a call is about. -/
def Op.conversation : Op → ConversationId
  | .upsert _ entry => entry.conversationId
  | .markRead _ r => r.conversationId

/-- What a call makes of the entry of its own conversation. -/
def Op.apply (old : Option InboxEntry) : Op → Option InboxEntry
  | .upsert _ entry => some entry
  | .markRead _ _ => old.map fun e => { e with unread := 0 }

/-- The entries of every owner and conversation. -/
abbrev Entries := InboxService → ConversationId → Option InboxEntry

def Entries.step (inbox : Entries) (op : Op) : Entries := fun s c =>
  if op.service = s ∧ op.conversation = c then op.apply (inbox s c) else inbox s c

theorem Entries.step_own (inbox : Entries) (op : Op) :
    inbox.step op op.service op.conversation = op.apply (inbox op.service op.conversation) := if_pos ⟨rfl, rfl⟩

theorem Entries.step_other {inbox : Entries} {op : Op} {s : InboxService} {c : ConversationId}
    (h : ¬ (op.service = s ∧ op.conversation = c)) : inbox.step op s c = inbox s c := if_neg h

theorem Entries.step_eq (inbox : Entries) (op : Op) {o : Option InboxEntry}
    (h : op.apply (inbox op.service op.conversation) = o) :
    inbox.step op = fun s c => if op.service = s ∧ op.conversation = c then o else inbox s c := by
  funext s c
  by_cases heq : op.service = s ∧ op.conversation = c
  · rw [if_pos heq]
    obtain ⟨rfl, rfl⟩ := heq
    rw [step_own, h]
  · rw [if_neg heq, step_other heq]

theorem Entries.step_same (inbox : Entries) (op : Op)
    (h : op.apply (inbox op.service op.conversation) = inbox op.service op.conversation) : inbox.step op = inbox := by
  funext s c
  by_cases heq : op.service = s ∧ op.conversation = c
  · obtain ⟨rfl, rfl⟩ := heq
    rw [step_own, h]
  · rw [step_other heq]

/-- The last entry upserted for the conversation, with `unread` cleared if it
was marked read since. -/
def lastEntry (ops : List Op) : Entries := ops.foldl Entries.step fun _ _ => none

/-- The database after the call. -/
def Op.run (db : ZeroDb) : Op → ZeroDb
  | .upsert s entry => (db.run (s.upsert entry)).2
  | .markRead s r => (db.run (s.markRead r)).2

def runOps (db : ZeroDb) (ops : List Op) : ZeroDb := ops.foldl Op.run db

theorem lastEntry_isSome_iff (ops : List Op) (s : InboxService) (c : ConversationId) :
    (lastEntry ops s c).isSome ↔ ∃ e, Op.upsert s e ∈ ops ∧ e.conversationId = c := by
  induction ops using List.reverseRecOn with
  | nil => simp [lastEntry]
  | append_singleton ops op ih =>
    have hstep : lastEntry (ops ++ [op]) = (lastEntry ops).step op := by rw [lastEntry, List.foldl_append]; rfl
    rw [hstep]
    by_cases hop : op.service = s ∧ op.conversation = c
    · obtain ⟨rfl, rfl⟩ := hop
      rw [Entries.step_own]
      cases op with
      | upsert s e => simp [Op.service, Op.conversation, Op.apply]
      | markRead s r => simpa [Op.service, Op.conversation, Op.apply] using ih
    · rw [Entries.step_other hop, ih]
      constructor
      · intro ⟨e, he, hc⟩
        exact ⟨e, by simp [he], hc⟩
      · intro ⟨e, he, hc⟩
        rcases List.mem_append.mp he with he | he
        · exact ⟨e, he, hc⟩
        · rw [← List.mem_singleton.mp he] at hop
          exact absurd ⟨rfl, hc⟩ hop

/-! ## What is stored -/

/-- The stored pairs of each owner are its entries of the map. -/
structure Holds (db : ZeroDb) (inbox : Entries) : Prop where
  stored : ∀ s k v, s.pre <+: k → db.get .inboxIndex k = some v →
    ∃ e, inbox s e.conversationId = some e ∧ s.pair e = (k, v)
  content : ∀ s c e, inbox s c = some e → e.conversationId = c ∧ db.get .inboxIndex (s.pair e).1 = some (s.pair e).2

/-- Newest first, then by conversation. -/
def Before (a b : InboxEntry) : Prop := b.lastTs < a.lastTs ∨ a.lastTs = b.lastTs ∧ a.conversationId < b.conversationId

/-- An owner's entries in the order of its keys. -/
structure Lists (inbox : Entries) (s : InboxService) (l : List InboxEntry) : Prop where
  mem : ∀ e, e ∈ l ↔ inbox s e.conversationId = some e
  ordered : l.Pairwise Before

/-- A scan of an owner whose stored pairs are those of the entries with `P`. -/
theorem scan_eq_map {db : ZeroDb} {s : InboxService} {P : InboxEntry → Prop}
    (hstored : ∀ k v, s.pre <+: k → db.get .inboxIndex k = some v → ∃ e, P e ∧ s.pair e = (k, v))
    (hcontent : ∀ e, P e → db.get .inboxIndex (s.pair e).1 = some (s.pair e).2) :
    ∃ l : List InboxEntry, (db.cf .inboxIndex).select s.pre.isPrefixOf = l.map s.pair ∧ (∀ e, e ∈ l ↔ P e) ∧
      l.Pairwise Before := by
  obtain ⟨l, hl, hin, hsorted⟩ : ∃ l : List InboxEntry,
      (db.cf .inboxIndex).select s.pre.isPrefixOf = l.map s.pair ∧
      (∀ e, e ∈ l ↔ P e) ∧ l.Pairwise fun a b => (s.pair a).1 < (s.pair b).1 := by
    refine OrdMap.select_eq_map s.pair_injective (fun k v hv hk => ?_) fun e he => ?_
    · obtain ⟨e, he, hp⟩ := hstored k v (List.isPrefixOf_iff_prefix.mp hk) hv
      exact ⟨e, hp, he⟩
    · exact ⟨hcontent e he, List.isPrefixOf_iff_prefix.mpr (InboxService.pre_isPrefix_iff.mpr rfl)⟩
  exact ⟨l, hl, hin, hsorted.imp fun {a b} hab => (encodeKey_lt_iff _ _ _ _ _ _).mp hab⟩

theorem Holds.lists {db : ZeroDb} {inbox : Entries} (h : Holds db inbox) (s : InboxService) :
    ∃ l, Lists inbox s l ∧ (db.cf .inboxIndex).select s.pre.isPrefixOf = l.map s.pair := by
  obtain ⟨l, hl, hin, hsorted⟩ := scan_eq_map (h.stored s) fun e he => (h.content s _ e he).2
  exact ⟨l, ⟨hin, hsorted⟩, hl⟩

/-! ## One call -/

@[simp] theorem decodeEntry_pair (s : InboxService) (e : InboxEntry) : decodeEntry (s.pair e).2 = .ok e := by
  simp [decodeEntry, InboxService.pair, Except.mapError]

theorem findLoop_map (s : InboxService) (c : ConversationId) (l : List InboxEntry) :
    findLoop c (l.map s.pair) = .ok ((l.find? fun e => e.conversationId = c).map fun e => ((s.pair e).1, e)) := by
  induction l with
  | nil => rfl
  | cons e l ih =>
    have hdec := decodeEntry_pair s e
    simp only [InboxService.pair] at hdec ih
    by_cases hc : e.conversationId = c <;> simp [findLoop, InboxService.pair, hdec, hc, ih]

theorem run_findRawEntry {db : ZeroDb} {inbox : Entries} (h : Holds db inbox) (s : InboxService) (c : ConversationId) :
    db.run (s.findRawEntry c) = (.ok ((inbox s c).map fun e => ((s.pair e).1, e)), db) := by
  obtain ⟨l, hl, hsel⟩ := h.lists s
  have hfind : (l.find? fun e => e.conversationId = c) = inbox s c := by
    cases hc : inbox s c with
    | none =>
      rw [List.find?_eq_none]
      intro e he heq
      have := (hl.mem e).mp he
      rw [of_decide_eq_true heq, hc] at this
      cases this
    | some e =>
      have hec := (h.content s c e hc).1
      cases hf : l.find? fun e => decide (e.conversationId = c) with
      | none =>
        have := List.find?_eq_none.mp hf e ((hl.mem e).mpr (by rw [hec, hc]))
        simp [hec] at this
      | some e' =>
        have he' := (hl.mem e').mp (List.mem_of_find?_eq_some hf)
        have hec' : e'.conversationId = c := by simpa using List.find?_some hf
        rw [hec', hc] at he'
        exact he'.symm
  have hscan : (db.cf .inboxIndex).select (ownerPrefix s.identityId s.machineId).isPrefixOf = l.map s.pair := hsel
  simp only [InboxService.findRawEntry, Prog.run_bind, Prog.run_mapErr, run_prefixScanRaw, Except.mapError, hscan,
    Prog.run_lift, findLoop_map, hfind]

/-- What is read after an entry's old pair is deleted and its new one written. -/
theorem get_replaced (db : ZeroDb) (s : InboxService) (old : Option InboxEntry) (new : InboxEntry) (k : Bytes) :
    ((old.elim db fun e => db.delete .inboxIndex (s.pair e).1).put .inboxIndex (s.pair new).1 (s.pair new).2).get
        .inboxIndex k =
      if k = (s.pair new).1 then some (s.pair new).2
      else if ∃ e, old = some e ∧ k = (s.pair e).1 then none else db.get .inboxIndex k := by
  rw [ZeroDb.get_put]
  simp only [true_and]
  split
  · rfl
  cases old with
  | none => simp
  | some e => simp [ZeroDb.get_delete]

theorem Holds.replace {db : ZeroDb} {inbox : Entries} (h : Holds db inbox) (s : InboxService) (c : ConversationId)
    (new : InboxEntry) (hnew : new.conversationId = c) :
    Holds (((inbox s c).elim db fun e => db.delete .inboxIndex (s.pair e).1).put .inboxIndex (s.pair new).1 (s.pair new).2)
      (fun s' c' => if s = s' ∧ c = c' then some new else inbox s' c') := by
  have hget := get_replaced db s (inbox s c) new
  constructor
  · intro s' k v hk hv
    rw [hget] at hv
    split at hv
    · next heq =>
      cases hv
      subst heq
      obtain rfl := InboxService.pre_isPrefix_iff.mp hk
      exact ⟨new, by simp [hnew], rfl⟩
    split at hv
    · cases hv
    · next hne hold =>
      obtain ⟨e, he, hp⟩ := h.stored s' k v hk hv
      refine ⟨e, ?_, hp⟩
      rw [if_neg]
      · exact he
      · rintro ⟨rfl, rfl⟩
        exact hold ⟨e, he, congrArg Prod.fst hp.symm⟩
  · intro s' c' e he
    split at he
    · next heq =>
      cases he
      obtain ⟨rfl, rfl⟩ := heq
      exact ⟨hnew, by rw [hget, if_pos rfl]⟩
    · next hne =>
      obtain ⟨hec, hstored⟩ := h.content s' c' e he
      refine ⟨hec, ?_⟩
      rw [hget, if_neg, if_neg, hstored]
      · intro ⟨e₀, he₀, hk⟩
        obtain ⟨rfl, -, hc⟩ := InboxService.pair_key_inj hk
        exact hne ⟨rfl, by rw [← hec, hc, (h.content _ _ _ he₀).1]⟩
      · intro hk
        obtain ⟨rfl, -, hc⟩ := InboxService.pair_key_inj hk
        exact hne ⟨rfl, by rw [← hec, hc, hnew]⟩

theorem step_holds {db : ZeroDb} {inbox : Entries} (h : Holds db inbox) (op : Op) :
    Holds (op.run db) (inbox.step op) := by
  cases op with
  | upsert s entry =>
    have hrun : (db.run (s.upsert entry)).2 = ((inbox s entry.conversationId).elim db
        fun e => db.delete .inboxIndex (s.pair e).1).put .inboxIndex (s.pair entry).1 (s.pair entry).2 := by
      simp only [InboxService.upsert, Prog.run_bind, run_findRawEntry h]
      cases inbox s entry.conversationId <;> rfl
    rw [Op.run, hrun, Entries.step_eq inbox (.upsert s entry) rfl]
    exact h.replace s _ entry rfl
  | markRead s r =>
    simp only [Op.run, InboxService.markRead, Prog.run_bind, run_findRawEntry h]
    -- a conversation that stays as it is
    have keep : (inbox s r.conversationId).map (fun e => { e with unread := 0 }) = inbox s r.conversationId →
        Holds db (inbox.step (.markRead s r)) := by
      intro hsame
      rw [Entries.step_same inbox (.markRead s r) hsame]
      exact h
    cases he : inbox s r.conversationId with
    | none => exact keep (by rw [he]; rfl)
    | some e =>
      simp only [Option.map_some]
      split
      · next hpos =>
        have happly : Op.apply (inbox s r.conversationId) (.markRead s r) = some { e with unread := 0 } := by
          rw [he]
          rfl
        have hrep := h.replace s r.conversationId { e with unread := 0 } (h.content _ _ _ he).1
        rw [he] at hrep
        rw [Entries.step_eq inbox (.markRead s r) happly]
        exact hrep
      · next hzero =>
        refine keep ?_
        have hu : e.unread = 0 := by
          rw [gt_iff_lt, UInt32.lt_iff_toNat_lt] at hzero
          exact UInt32.toNat_inj.mp (by simpa using hzero)
        rw [he, Option.map_some, ← hu]

theorem run_holds {db : ZeroDb} (h : db.cf .inboxIndex = .empty) (ops : List Op) :
    Holds (runOps db ops) (lastEntry ops) := by
  induction ops using List.reverseRecOn with
  | nil =>
    refine ⟨fun s k v _ hv => ?_, fun s c e he => by cases he⟩
    simp [runOps, ZeroDb.get, h] at hv
  | append_singleton ops op ih =>
    rw [runOps, lastEntry, List.foldl_append, List.foldl_append]
    exact step_holds ih op

/-! ## What is read -/

/-- The sum of the unread counts. -/
def unreadSum (l : List InboxEntry) : Nat := (l.map fun e => e.unread.toNat).sum

theorem listLoop_map (s : InboxService) (limit : Nat) (acc l : List InboxEntry) :
    InboxService.listLoop limit acc (l.map s.pair) = .ok (acc ++ l.take (limit - acc.length)) := by
  induction l generalizing acc with
  | nil => simp [InboxService.listLoop]
  | cons e l ih =>
    have hdec := decodeEntry_pair s e
    rw [List.map_cons, InboxService.listLoop]
    split
    · next hfull => rw [Nat.sub_eq_zero_of_le hfull, List.take_zero, List.append_nil]
    · next hroom =>
      rw [hdec]
      simp only [ih, List.length_append, List.length_singleton, List.append_assoc, List.singleton_append]
      obtain ⟨n, hn⟩ : ∃ n, limit - acc.length = n + 1 := ⟨limit - acc.length - 1, by omega⟩
      rw [hn, List.take_succ_cons, Nat.sub_add_eq, hn, Nat.add_sub_cancel]

theorem unread_add (t : UInt64) (e : InboxEntry) (l : List InboxEntry) :
    t + e.unread.toUInt64 + UInt64.ofNat (unreadSum l) = t + UInt64.ofNat (unreadSum (e :: l)) := by
  have he : e.unread.toUInt64 = UInt64.ofNat e.unread.toNat := by simp
  rw [unreadSum, unreadSum, List.map_cons, List.sum_cons, UInt64.ofNat_add, he, UInt64.add_assoc]

theorem unreadLoop_map (s : InboxService) (t : UInt64) (l : List InboxEntry) :
    InboxService.unreadLoop t (l.map s.pair) = .ok (t + UInt64.ofNat (unreadSum l)) := by
  induction l generalizing t with
  | nil => simp [InboxService.unreadLoop, unreadSum]
  | cons e l ih =>
    rw [List.map_cons, InboxService.unreadLoop, decodeEntry_pair]
    simp only [ih, unread_add]

theorem statsLoop_map (s : InboxService) (st : InboxStats) (l : List InboxEntry) :
    InboxService.statsLoop st (l.map s.pair) =
      .ok ⟨st.totalUnread + UInt64.ofNat (unreadSum l), st.conversationCount + l.length⟩ := by
  induction l generalizing st with
  | nil => simp [InboxService.statsLoop, unreadSum]
  | cons e l ih =>
    rw [List.map_cons, InboxService.statsLoop, decodeEntry_pair]
    simp only [ih, unread_add, List.length_cons, Nat.add_assoc, Nat.add_comm 1]

/-- Everything the owner `s` can ask is answered from the list `l`. -/
structure Answers (db : ZeroDb) (s : InboxService) (l : List InboxEntry) : Prop where
  stored : (db.cf .inboxIndex).select (ownerPrefix s.identityId s.machineId).isPrefixOf = l.map s.pair
  list : ∀ limit, (db.run (s.listInbox limit)).1 = .ok (l.take (limit.getD 50))
  total : (db.run s.unreadTotal).1 = .ok (UInt64.ofNat (unreadSum l))
  stats : (db.run s.stats).1 = .ok ⟨UInt64.ofNat (unreadSum l), l.length⟩

theorem answers_of_stored {db : ZeroDb} {s : InboxService} {l : List InboxEntry}
    (h : (db.cf .inboxIndex).select (ownerPrefix s.identityId s.machineId).isPrefixOf = l.map s.pair) :
    Answers db s l where
  stored := h
  list limit := by
    simp only [InboxService.listInbox, Prog.run_bind, Prog.run_mapErr, run_prefixScanRaw, Except.mapError, h,
      Prog.run_lift, listLoop_map, List.nil_append, List.length_nil, Nat.sub_zero]
  total := by
    simp only [InboxService.unreadTotal, Prog.run_bind, Prog.run_mapErr, run_prefixScanRaw, Except.mapError, h,
      Prog.run_lift, unreadLoop_map, UInt64.zero_add]
  stats := by
    simp only [InboxService.stats, Prog.run_bind, Prog.run_mapErr, run_prefixScanRaw, Except.mapError, h,
      Prog.run_lift, statsLoop_map, UInt64.zero_add, Nat.zero_add]

theorem unreadSum_le (l : List InboxEntry) : unreadSum l ≤ l.length * (2 ^ 32 - 1) := by
  induction l with
  | nil => simp [unreadSum]
  | cons e l ih =>
    have he := e.unread.toNat_lt
    rw [unreadSum, List.map_cons, List.sum_cons, List.length_cons, Nat.succ_mul, ← unreadSum]
    omega

theorem Before.asymm {a b : InboxEntry} (hab : Before a b) (hba : Before b a) : False := by
  simp only [Before, UInt64.lt_iff_toNat_lt, ← UInt64.toNat_inj] at hab hba
  rcases hab with hab | ⟨hab, hc⟩ <;> rcases hba with hba | ⟨hba, hc'⟩
  · omega
  · omega
  · omega
  · exact lt_irrefl _ (lt_trans hc hc')

theorem nodup_of_ordered {l : List InboxEntry} (h : l.Pairwise Before) : l.Nodup := by
  refine h.imp ?_
  rintro a _ hab rfl
  exact hab.asymm hab

theorem Lists.nodup {inbox : Entries} {s : InboxService} {l : List InboxEntry} (h : Lists inbox s l) :
    (l.map (·.conversationId)).Nodup := by
  refine (nodup_of_ordered h.ordered).map_on fun a ha b hb hc => ?_
  have ha' := (h.mem a).mp ha
  rw [hc, (h.mem b).mp hb] at ha'
  exact (Option.some.inj ha').symm

theorem Lists.unique {inbox inbox' : Entries} {s : InboxService} {l l' : List InboxEntry} (h : Lists inbox s l)
    (h' : Lists inbox' s l') (heq : ∀ c, inbox s c = inbox' s c) : l = l' := by
  refine List.Perm.eq_of_pairwise (fun a b _ _ hab hba => (hab.asymm hba).elim) h.ordered h'.ordered
    ((List.perm_ext_iff_of_nodup (nodup_of_ordered h.ordered) (nodup_of_ordered h'.ordered)).mpr fun e => ?_)
  rw [h.mem, h'.mem, heq]

/-- **The inbox index refines a map.** After any run of upserts and
`mark_read`s by any services, an owner has exactly one stored pair for each
conversation it ever upserted, with the last entry upserted (`unread`
cleared if it was marked read since). Its list is the start of these entries
ordered newest first, its totals are over exactly these entries, and a call
of another owner changes none of it. The total is a `u64`, and exact as long
as there are at most 2^32 conversations. -/
theorem inbox_refines_map {db : ZeroDb} (h : db.cf .inboxIndex = .empty) (ops : List Op) (s : InboxService) :
    ∃ l, Answers (runOps db ops) s l ∧
      (∀ e, e ∈ l ↔ lastEntry ops s e.conversationId = some e) ∧
      (∀ c, (∃ e ∈ l, e.conversationId = c) ↔ ∃ e, Op.upsert s e ∈ ops ∧ e.conversationId = c) ∧
      (l.map (·.conversationId)).Nodup ∧ l.Pairwise Before ∧
      (l.length ≤ 2 ^ 32 → (UInt64.ofNat (unreadSum l)).toNat = unreadSum l) ∧
      ∀ op, op.service ≠ s → Answers (runOps db (ops ++ [op])) s l := by
  have hholds := run_holds h ops
  obtain ⟨l, hl, hsel⟩ := hholds.lists s
  refine ⟨l, answers_of_stored hsel, hl.mem, fun c => ?_, hl.nodup, hl.ordered, fun hlen => ?_, fun op hop => ?_⟩
  · rw [← lastEntry_isSome_iff, Option.isSome_iff_exists]
    constructor
    · rintro ⟨e, he, rfl⟩
      exact ⟨e, (hl.mem e).mp he⟩
    · intro ⟨e, he⟩
      have hc := (hholds.content s c e he).1
      exact ⟨e, (hl.mem e).mpr (by rw [hc, he]), hc⟩
  · have hsum := unreadSum_le l
    have hle : l.length * (2 ^ 32 - 1) ≤ 2 ^ 32 * (2 ^ 32 - 1) := Nat.mul_le_mul_right _ hlen
    rw [UInt64.toNat_ofNat']
    exact Nat.mod_eq_of_lt (by omega)
  · obtain ⟨l', hl', hsel'⟩ := (run_holds h (ops ++ [op])).lists s
    have hsame : ∀ c, lastEntry ops s c = lastEntry (ops ++ [op]) s c := by
      intro c
      have hstep : lastEntry (ops ++ [op]) = (lastEntry ops).step op := by rw [lastEntry, List.foldl_append]; rfl
      rw [hstep, Entries.step_other fun heq => hop heq.1]
    rw [hl.unique hl' hsame]
    exact answers_of_stored hsel'

/-- Two owners upsert one conversation, and the first reads it. -/
theorem inbox_refines_map_two_owners :
    let a : InboxService := ⟨⟨Arr.fill 16 1⟩, ⟨Arr.fill 16 1⟩⟩
    let b : InboxService := ⟨⟨Arr.fill 16 2⟩, ⟨Arr.fill 16 1⟩⟩
    let e : InboxEntry := ⟨⟨Arr.fill 32 7⟩, .dm, 5, 3, ⟨Arr.fill 16 2⟩, Str.empty⟩
    let ops := [Op.upsert a e, .upsert b e, .markRead a ⟨e.conversationId, .dm⟩]
    ∃ l, Answers (runOps ZeroDb.empty ops) a l ∧ { e with unread := 0 } ∈ l := by
  intro a b e ops
  have hdb : ZeroDb.empty.cf .inboxIndex = .empty := rfl
  obtain ⟨l, hans, hmem, -⟩ := inbox_refines_map hdb ops a
  exact ⟨l, hans, (hmem _).mpr (by decide)⟩

end ZeroSdk.Inbox
