/-
Updates of one owner's inbox that run at the same time. An update scans for
the conversation's entry, deletes it under the key it found, and puts the
new entry under a key with the new timestamp: three steps, between which
others take theirs. Two upserts of a conversation that both scan before
either writes leave two entries (`two_upserts_two_entries`).

What always holds is that no conversation is lost, and
`one_entry_per_conversation` adds when there is only one entry of each: when
nobody puts an entry of the conversation under another timestamp between an
update's scan and its put, or only one that is deleted again before the put.
-/
import ZeroSdk.Inbox.Refine
import ZeroSdk.Storage.Threads

namespace ZeroSdk

/-- What a step does to the index. -/
inductive RowAccess
  | scan
  | delete (key : Bytes)
  | put (key : Bytes)
  deriving DecidableEq

def StoreOp.rowAccess : StoreOp → RowAccess
  | .get _ _ | .iterator _ _ => .scan
  | .delete _ key => .delete key
  | .put _ key _ => .put key

namespace Inbox
open Interleave

variable {ι : Type}

/-- A call that changes the index, on the service of one owner. -/
inductive Update
  | upsert (entry : InboxEntry)
  | markRead (conversationRef : ConversationRef)
  deriving DecidableEq

namespace Update

def prog (s : InboxService) : Update → DbProg InboxError Unit
  | .upsert entry => s.upsert entry
  | .markRead r => s.markRead r

def conversation : Update → ConversationId
  | .upsert entry => entry.conversationId
  | .markRead r => r.conversationId

end Update

/-- The updates of an owner on a shared database, none of them started. -/
def concurrently (s : InboxService) (db : ZeroDb) (calls : ι → Update) : Threads ι InboxError :=
  ⟨fun i => (calls i).prog s, db⟩

/-- The owner's stored entries of a conversation. -/
def entriesOf (db : ZeroDb) (s : InboxService) (c : ConversationId) : List InboxEntry :=
  ((db.cf .inboxIndex).select s.pre.isPrefixOf).filterMap fun kv =>
    match decodeEntry kv.2 with
    | .ok e => if e.conversationId = c then some e else none
    | .error _ => none

/-- `l` puts an entry of the conversation under the key, and does not delete
the key after that. -/
def Leaves (calls : ι → Update) (c : ConversationId) (key : Bytes) (l : List (ι × RowAccess)) : Prop :=
  ∃ before j after, l = before ++ (j, .put key) :: after ∧ (calls j).conversation = c ∧ ∀ k, (k, .delete key) ∉ after

/-- What is done between the scan and the put of an update leaves no entry of
the same conversation under another key. -/
def Undisturbed (calls : ι → Update) (tr : List (ι × RowAccess)) : Prop :=
  ∀ pre i mid key post, tr = pre ++ (i, .scan) :: mid ++ (i, .put key) :: post →
    ∀ key', Leaves calls (calls i).conversation key' mid → key' = key

/-! ## Rows -/

/-- The entry is stored under its key. -/
def Row (s : InboxService) (db : ZeroDb) (e : InboxEntry) : Prop :=
  db.get .inboxIndex (s.pair e).1 = some (s.pair e).2

/-- Whatever is stored for the owner is an entry under its key. -/
def Indexed (s : InboxService) (db : ZeroDb) : Prop :=
  ∀ k v, s.pre <+: k → db.get .inboxIndex k = some v → ∃ e, s.pair e = (k, v)

/-- Two rows of one conversation are one. -/
def OnePerConversation (s : InboxService) (db : ZeroDb) : Prop :=
  ∀ e e', Row s db e → Row s db e' → e.conversationId = e'.conversationId → e = e'

section Rows
variable {s : InboxService} {db : ZeroDb}

theorem Holds.indexed {inbox : Entries} (h : Holds db inbox) (s : InboxService) : Indexed s db := by
  intro k v hk hv
  obtain ⟨e, -, he⟩ := h.stored s k v hk hv
  exact ⟨e, he⟩

theorem Holds.row_iff {inbox : Entries} (h : Holds db inbox) (s : InboxService) (e : InboxEntry) :
    Row s db e ↔ inbox s e.conversationId = some e := by
  constructor
  · intro hrow
    obtain ⟨e', he', hp⟩ := h.stored s _ _ (InboxService.pre_isPrefix_iff.mpr rfl) hrow
    rw [← s.pair_injective hp]
    exact he'
  · intro he
    exact (h.content s _ e he).2

theorem Holds.onePerConversation {inbox : Entries} (h : Holds db inbox) (s : InboxService) :
    OnePerConversation s db := by
  intro e e' he he' hc
  rw [h.row_iff] at he he'
  rw [hc, he'] at he
  exact (Option.some.inj he).symm

theorem Indexed.list (h : Indexed s db) :
    ∃ l : List InboxEntry, (db.cf .inboxIndex).select s.pre.isPrefixOf = l.map s.pair ∧
      (∀ e, e ∈ l ↔ Row s db e) ∧ l.Pairwise Before := by
  refine scan_eq_map (fun k v hk hv => ?_) fun e he => he
  obtain ⟨e, he⟩ := h k v hk hv
  refine ⟨e, ?_, he⟩
  rw [Row, he]
  exact hv

theorem entriesOf_eq {l : List InboxEntry} (hl : (db.cf .inboxIndex).select s.pre.isPrefixOf = l.map s.pair)
    (c : ConversationId) : entriesOf db s c = l.filter (·.conversationId = c) := by
  rw [entriesOf, hl, List.filterMap_map, ← List.filterMap_eq_filter]
  refine List.filterMap_congr fun e _ => ?_
  simp only [Function.comp_apply, decodeEntry_pair, Option.guard, decide_eq_true_eq]

theorem Indexed.mem_entriesOf (h : Indexed s db) {c : ConversationId} {e : InboxEntry} :
    e ∈ entriesOf db s c ↔ Row s db e ∧ e.conversationId = c := by
  obtain ⟨l, hl, hin, -⟩ := h.list
  rw [entriesOf_eq hl, List.mem_filter, hin, decide_eq_true_eq]

/-- Where two rows of a conversation are one, there is one at most. -/
theorem Indexed.entriesOf_length (h : Indexed s db) (hone : OnePerConversation s db) (c : ConversationId) :
    (entriesOf db s c).length ≤ 1 := by
  have hnd : (entriesOf db s c).Nodup := by
    obtain ⟨l, hl, -, hordered⟩ := h.list
    rw [entriesOf_eq hl]
    exact (nodup_of_ordered hordered).filter _
  match hes : entriesOf db s c with
  | [] => exact Nat.zero_le _
  | [_] => exact le_rfl
  | e :: e' :: _ =>
    have he := h.mem_entriesOf.mp (hes ▸ List.mem_cons_self : e ∈ entriesOf db s c)
    have he' := h.mem_entriesOf.mp (hes ▸ List.mem_cons_of_mem _ List.mem_cons_self : e' ∈ entriesOf db s c)
    rw [hes] at hnd
    have heq := hone e e' he.1 he'.1 (he.2.trans he'.2.symm)
    subst heq
    simp at hnd

theorem row_delete {k : Bytes} {e : InboxEntry} :
    Row s (db.delete .inboxIndex k) e ↔ Row s db e ∧ (s.pair e).1 ≠ k := by
  unfold Row
  rw [ZeroDb.get_delete]
  by_cases hk : (s.pair e).1 = k <;> simp [hk]

theorem row_put {new e : InboxEntry} :
    Row s (db.put .inboxIndex (s.pair new).1 (s.pair new).2) e ↔
      e = new ∨ Row s db e ∧ (s.pair e).1 ≠ (s.pair new).1 := by
  unfold Row
  rw [ZeroDb.get_put]
  by_cases hk : (s.pair e).1 = (s.pair new).1
  · simp only [hk, and_self, if_true, ne_eq, not_true, and_false, or_false, Option.some.injEq]
    constructor
    · intro hv
      exact (InboxService.pair_value_inj hv).symm
    · rintro rfl
      rfl
  · simp only [hk, and_false, if_false, ne_eq, not_false_iff, and_true]
    refine ⟨.inr, fun h => h.resolve_left ?_⟩
    rintro rfl
    exact hk rfl

theorem Indexed.delete (h : Indexed s db) (k : Bytes) : Indexed s (db.delete .inboxIndex k) := by
  intro k' v hk hv
  rw [ZeroDb.get_delete] at hv
  split at hv
  · cases hv
  · exact h k' v hk hv

theorem Indexed.put (h : Indexed s db) (new : InboxEntry) :
    Indexed s (db.put .inboxIndex (s.pair new).1 (s.pair new).2) := by
  intro k v hk hv
  by_cases heq : k = (s.pair new).1
  · subst heq
    rw [ZeroDb.get_put_self] at hv
    exact ⟨new, Prod.ext rfl (Option.some.inj hv)⟩
  · rw [ZeroDb.get_put_of_ne _ _ _ heq] at hv
    exact h k v hk hv

end Rows

/-! ## An update in stages -/

/-- What an update has still to do. -/
inductive Stage
  | scan
  | replace (old new : InboxEntry)
  | put (new : InboxEntry)
  | done
  deriving DecidableEq

/-- What an update does about the entry its scan found. -/
def Update.plan : Update → Option InboxEntry → Stage
  | .upsert entry, some old => .replace old entry
  | .upsert entry, none => .put entry
  | .markRead _, some old => if old.unread > 0 then .replace old { old with unread := 0 } else .done
  | .markRead _, none => .done

/-- The rest of an update's program. -/
def Stage.prog (s : InboxService) (u : Update) : Stage → DbProg InboxError Unit
  | .scan => u.prog s
  | .replace old new => do
    (deleteRaw .inboxIndex (s.pair old).1).mapErr .storage
    s.putEntry new
  | .put new => s.putEntry new
  | .done => pure ()

/-- The database and where each update is. -/
structure Index (ι : Type) where
  db : ZeroDb
  stage : ι → Stage

/-- Every update is before its scan. -/
def Index.init (db : ZeroDb) : Index ι := ⟨db, fun _ => .scan⟩

def Index.turn [DecidableEq ι] (s : InboxService) (calls : ι → Update) : Turn ι (Index ι) RowAccess
  | i, x =>
    match x.stage i with
    | .scan =>
      let found := (entriesOf x.db s (calls i).conversation).head?
      some (.scan, { x with stage := Function.update x.stage i ((calls i).plan found) })
    | .replace old new =>
      some (.delete (s.pair old).1,
        ⟨x.db.delete .inboxIndex (s.pair old).1, Function.update x.stage i (.put new)⟩)
    | .put new =>
      some (.put (s.pair new).1,
        ⟨x.db.put .inboxIndex (s.pair new).1 (s.pair new).2, Function.update x.stage i .done⟩)
    | .done => none

/-- A scan is one iterator, and finds the first entry of the conversation. -/
theorem findRawEntry_iterator (s : InboxService) (c : ConversationId) :
    ∃ k, s.findRawEntry c = .op (.iterator .inboxIndex (.forward s.pre)) k ∧
      ∀ db, Indexed s db → k ((db.items .inboxIndex (.forward s.pre)).map .ok) =
        .ret (.ok ((entriesOf db s c).head?.map fun e => ((s.pair e).1, e))) := by
  refine ⟨_, rfl, fun db h => ?_⟩
  obtain ⟨l, hl, -, -⟩ := h.list
  have hscan : prefixScanLoop (ownerPrefix s.identityId s.machineId)
      ((db.items .inboxIndex (.forward s.pre)).map .ok) = .ok (l.map s.pair) := by
    rw [prefixScanLoop_ok, ← hl]
    exact congrArg Except.ok (takeWhile_isPrefixOf _ s.pre)
  rw [entriesOf_eq hl, List.head?_filter]
  change Prog.bind (Prog.ret (Except.mapError _ (prefixScanLoop _ _))) _ = _
  rw [hscan]
  simp only [Except.mapError, Prog.bind, Prog.lift, findLoop_map]

/-- Where an update's program goes after its scan. -/
theorem Update.prog_scan (u : Update) (s : InboxService) :
    ∃ k, u.prog s = .op (.iterator .inboxIndex (.forward s.pre)) k ∧
      ∀ db, Indexed s db → k ((db.items .inboxIndex (.forward s.pre)).map .ok) =
        (u.plan (entriesOf db s u.conversation).head?).prog s u := by
  cases u with
  | upsert entry =>
    obtain ⟨k, hk, hfound⟩ := findRawEntry_iterator s entry.conversationId
    simp only [prog, InboxService.upsert, hk, bind, Prog.bind]
    refine ⟨_, rfl, fun db h => ?_⟩
    rw [hfound db h]
    simp only [Prog.bind, conversation]
    cases (entriesOf db s entry.conversationId).head? with
    | none => rfl
    | some old => rfl
  | markRead r =>
    obtain ⟨k, hk, hfound⟩ := findRawEntry_iterator s r.conversationId
    simp only [prog, InboxService.markRead, hk, bind, Prog.bind]
    refine ⟨_, rfl, fun db h => ?_⟩
    rw [hfound db h]
    simp only [Prog.bind, conversation]
    cases (entriesOf db s r.conversationId).head? with
    | none => rfl
    | some old =>
      simp only [Option.map_some, plan]
      by_cases hu : old.unread > 0
      · rw [if_pos hu, if_pos hu]
        rfl
      · rw [if_neg hu, if_neg hu]
        rfl

/-! ## The calls run in stages -/

section Sim
variable [DecidableEq ι]

/-- The calls are at their stages, on the same database. -/
structure Sim (s : InboxService) (calls : ι → Update) (t : Threads ι InboxError) (x : Index ι) : Prop where
  db : t.state = x.db
  threads : ∀ i, t.threads i = (x.stage i).prog s (calls i)
  indexed : Indexed s x.db

theorem prog_update {s : InboxService} {calls : ι → Update} {t : Threads ι InboxError} {x : Index ι}
    (h : Sim s calls t x) {i : ι} {p : DbProg InboxError Unit} {st : Stage} (hp : p = st.prog s (calls i)) (j : ι) :
    Function.update t.threads i p j = (Function.update x.stage i st j).prog s (calls j) := by
  by_cases hj : j = i
  · subst hj
    rw [Function.update_self, Function.update_self]
    exact hp
  · rw [Function.update_of_ne hj, Function.update_of_ne hj]
    exact h.threads j

theorem Sim.turn {s : InboxService} {calls : ι → Update} {t : Threads ι InboxError} {x : Index ι}
    (h : Sim s calls t x) (i : ι) :
    Match (Sim s calls) StoreOp.rowAccess (Pool.turn ZeroDb.handle i t) (Index.turn s calls i x) := by
  have hi := h.threads i
  cases hst : x.stage i with
  | scan =>
    rw [hst] at hi
    obtain ⟨k, hk, hplan⟩ := (calls i).prog_scan s
    have hk' : t.threads i = .op (.iterator .inboxIndex (.forward s.pre)) k := hi.trans hk
    simp only [Pool.turn, Index.turn, hk', hst, Match]
    refine ⟨rfl, h.db, prog_update h ?_, h.indexed⟩
    rw [h.db]
    exact hplan x.db h.indexed
  | replace old new =>
    rw [hst] at hi
    have hk : t.threads i = .op (.delete .inboxIndex (s.pair old).1) fun r =>
        (Prog.mapErr .storage (Prog.lift (r.mapError .rocks))).bind fun _ => s.putEntry new := hi
    simp only [Pool.turn, Index.turn, hk, hst, Match]
    refine ⟨rfl, ?_, prog_update h rfl, h.indexed.delete _⟩
    rw [h.db]
    rfl
  | put new =>
    rw [hst] at hi
    have hk : t.threads i = .op (.put .inboxIndex (s.pair new).1 (s.pair new).2) fun r =>
        Prog.mapErr .storage (Prog.lift (r.mapError .rocks)) := hi
    simp only [Pool.turn, Index.turn, hk, hst, Match]
    refine ⟨rfl, ?_, prog_update h rfl, h.indexed.put _⟩
    rw [h.db]
    rfl
  | done =>
    rw [hst] at hi
    have hk : t.threads i = .ret (.ok ()) := hi
    simp only [Pool.turn, Index.turn, hk, hst, Match]

omit [DecidableEq ι] in
theorem Sim.stage_done {s : InboxService} {calls : ι → Update} {t : Threads ι InboxError} {x : Index ι}
    (h : Sim s calls t x) {i : ι} (hi : (t.result i).isSome) : x.stage i = .done := by
  have hth := h.threads i
  cases hst : x.stage i with
  | scan =>
    obtain ⟨k, hk, -⟩ := (calls i).prog_scan s
    have hop : t.threads i = .op (.iterator .inboxIndex (.forward s.pre)) k := by
      rw [hth, hst]
      exact hk
    simp [Threads.result, hop] at hi
  | replace old new =>
    rw [hst] at hth
    simp [Threads.result, hth, Stage.prog, deleteRaw, bind, Prog.bind, Prog.mapErr, Prog.call] at hi
  | put new =>
    rw [hst] at hth
    simp [Threads.result, hth, Stage.prog, InboxService.putEntry, putRaw, bind, Prog.bind, Prog.mapErr, Prog.call] at hi
  | done => rfl

theorem Index.turn_cases (s : InboxService) (calls : ι → Update) (x : Index ι) (i : ι) :
    (x.stage i = .done ∧ step (turn s calls) x i = x ∧ label (turn s calls) x i = []) ∨
    (x.stage i = .scan ∧ label (turn s calls) x i = [(i, .scan)] ∧
      step (turn s calls) x i = ⟨x.db, Function.update x.stage i
        ((calls i).plan (entriesOf x.db s (calls i).conversation).head?)⟩) ∨
    (∃ old new, x.stage i = .replace old new ∧ label (turn s calls) x i = [(i, .delete (s.pair old).1)] ∧
      step (turn s calls) x i = ⟨x.db.delete .inboxIndex (s.pair old).1, Function.update x.stage i (.put new)⟩) ∨
    (∃ new, x.stage i = .put new ∧ label (turn s calls) x i = [(i, .put (s.pair new).1)] ∧
      step (turn s calls) x i =
        ⟨x.db.put .inboxIndex (s.pair new).1 (s.pair new).2, Function.update x.stage i .done⟩) := by
  cases hst : x.stage i with
  | scan =>
    have ht : turn s calls i x = some (.scan, ⟨x.db, Function.update x.stage i
        ((calls i).plan (entriesOf x.db s (calls i).conversation).head?)⟩) := by
      simp only [turn, hst]
    simp [step, label, ht]
  | replace old new =>
    have ht : turn s calls i x = some (.delete (s.pair old).1,
        ⟨x.db.delete .inboxIndex (s.pair old).1, Function.update x.stage i (.put new)⟩) := by
      simp only [turn, hst]
    simp [step, label, ht]
  | put new =>
    have ht : turn s calls i x = some (.put (s.pair new).1,
        ⟨x.db.put .inboxIndex (s.pair new).1 (s.pair new).2, Function.update x.stage i .done⟩) := by
      simp only [turn, hst]
    simp [step, label, ht]
  | done =>
    have ht : turn s calls i x = none := by simp only [turn, hst]
    simp [step, label, ht]

/-! ## No conversation is lost -/

/-- The entries an update is about to delete and put are of the conversation. -/
def Stage.About (c : ConversationId) : Stage → Prop
  | .scan | .done => True
  | .replace old new => old.conversationId = c ∧ new.conversationId = c
  | .put new => new.conversationId = c

theorem Update.plan_about {u : Update} {o : Option InboxEntry} (h : ∀ e, o = some e → e.conversationId = u.conversation) :
    (u.plan o).About u.conversation := by
  cases u with
  | upsert entry =>
    cases o with
    | none => rfl
    | some old => exact ⟨h old rfl, rfl⟩
  | markRead r =>
    cases o with
    | none => trivial
    | some old =>
      simp only [plan]
      split
      · exact ⟨h old rfl, h old rfl⟩
      · trivial

/-- A conversation has an entry, or an update is about to put one. -/
def Live (s : InboxService) (x : Index ι) (c : ConversationId) : Prop :=
  (∃ e, Row s x.db e ∧ e.conversationId = c) ∨ ∃ i new, x.stage i = .put new ∧ new.conversationId = c

/-- The rows are entries under their keys, the updates are about their
conversations, and no conversation of `had` and none given an entry is lost. -/
structure Fits (s : InboxService) (calls : ι → Update) (had : Set ConversationId) (x : Index ι) : Prop where
  indexed : Indexed s x.db
  about : ∀ i, (x.stage i).About (calls i).conversation
  had : ∀ c ∈ had, Live s x c
  given : ∀ i entry, calls i = .upsert entry → x.stage i ≠ .scan → Live s x entry.conversationId

section Fits
variable {s : InboxService} {calls : ι → Update} {had : Set ConversationId} {x : Index ι}

omit [DecidableEq ι] in
theorem Fits.found (h : Fits s calls had x) {c : ConversationId} {e : InboxEntry}
    (he : (entriesOf x.db s c).head? = some e) : Row s x.db e ∧ e.conversationId = c :=
  h.indexed.mem_entriesOf.mp (List.mem_of_mem_head? he)

/-- A conversation stays live while its rows stay and the call that takes the
turn is not the one about to put its entry. -/
theorem Live.update {c : ConversationId} (h : Live s x c) {db : ZeroDb} {i : ι} (st : Stage)
    (hrow : ∀ e, Row s x.db e → e.conversationId = c → Row s db e)
    (hput : ∀ new, x.stage i = .put new → new.conversationId ≠ c) :
    Live s (⟨db, Function.update x.stage i st⟩ : Index ι) c := by
  rcases h with ⟨e, he, hc⟩ | ⟨j, new, hj, hc⟩
  · exact .inl ⟨e, hrow e he hc, hc⟩
  · have hij : j ≠ i := by
      rintro rfl
      exact hput new hj hc
    exact .inr ⟨j, new, (Function.update_of_ne hij _ _).trans hj, hc⟩

/-- A turn that keeps every live conversation live, and after which the
conversation of its own call is live if that is an upsert. -/
theorem Fits.update (h : Fits s calls had x) {i : ι} {st : Stage} {db : ZeroDb} (hindexed : Indexed s db)
    (habout : st.About (calls i).conversation)
    (hkeep : ∀ c, Live s x c → Live s (⟨db, Function.update x.stage i st⟩ : Index ι) c)
    (hself : ∀ entry, calls i = .upsert entry →
      Live s (⟨db, Function.update x.stage i st⟩ : Index ι) entry.conversationId) :
    Fits s calls had ⟨db, Function.update x.stage i st⟩ := by
  refine ⟨hindexed, fun j => ?_, fun c hc => hkeep c (h.had c hc), fun j entry hj hscan => ?_⟩
  · by_cases hij : j = i
    · subst hij
      simp only [Function.update_self]
      exact habout
    · simp only [Function.update_of_ne hij]
      exact h.about j
  · by_cases hij : j = i
    · subst hij
      exact hself entry hj
    · simp only [Function.update_of_ne hij] at hscan
      exact hkeep _ (h.given j entry hj hscan)

/-- A turn that writes: the conversation of its call is live after it, and the
rows of the others are still there. -/
theorem Fits.write (h : Fits s calls had x) {i : ι} {st : Stage} {db : ZeroDb} (hindexed : Indexed s db)
    (habout : st.About (calls i).conversation)
    (hown : Live s (⟨db, Function.update x.stage i st⟩ : Index ι) (calls i).conversation)
    (hrow : ∀ e, Row s x.db e → e.conversationId ≠ (calls i).conversation → Row s db e) :
    Fits s calls had ⟨db, Function.update x.stage i st⟩ := by
  refine h.update hindexed habout (fun c hc => ?_) fun entry hentry => ?_
  · by_cases heq : c = (calls i).conversation
    · rw [heq]
      exact hown
    · refine hc.update st (fun e he hec => hrow e he (hec ▸ heq)) fun new hnew hnc => heq ?_
      have hab := h.about i
      rw [hnew] at hab
      exact hnc.symm.trans hab
  · rw [hentry] at hown
    exact hown

theorem Fits.turn (h : Fits s calls had x) (i : ι) : Fits s calls had (step (Index.turn s calls) x i) := by
  have hab := h.about i
  rcases Index.turn_cases s calls x i with ⟨-, hs, -⟩ | ⟨hst, -, hs⟩ | ⟨old, new, hst, -, hs⟩ | ⟨new, hst, -, hs⟩
  · rw [hs]
    exact h
  · rw [hs]
    refine h.update h.indexed (Update.plan_about fun e he => (h.found he).2)
      (fun c hc => hc.update _ (fun e he _ => he) fun new hnew => ?_) fun entry hentry => ?_
    · rw [hst] at hnew
      cases hnew
    · rw [hentry]
      cases hf : (entriesOf x.db s entry.conversationId).head? with
      | none =>
        refine .inr ⟨i, entry, ?_, rfl⟩
        simp only [Update.conversation, hf, Update.plan, Function.update_self]
      | some old => exact .inl ⟨old, h.found hf⟩
  · rw [hs]
    rw [hst] at hab
    -- a row of another conversation has another key
    refine h.write (h.indexed.delete _) hab.2 (.inr ⟨i, new, Function.update_self _ _ _, hab.2⟩) fun e he hne =>
      row_delete.mpr ⟨he, fun hk => hne ?_⟩
    rw [← hab.1]
    exact (InboxService.pair_key_inj hk).2.2
  · rw [hs]
    rw [hst] at hab
    refine h.write (h.indexed.put _) trivial (.inl ⟨new, row_put.mpr (.inl rfl), hab⟩) fun e he hne =>
      row_put.mpr (.inr ⟨he, fun hk => hne ?_⟩)
    rw [← hab]
    exact (InboxService.pair_key_inj hk).2.2

end Fits

/-! ## One entry of each conversation -/

omit [DecidableEq ι] in
theorem Leaves.concat {calls : ι → Update} {c : ConversationId} {key : Bytes} {l : List (ι × RowAccess)}
    (h : Leaves calls c key l) {x : ι × RowAccess} (hx : x.2 ≠ .delete key) : Leaves calls c key (l ++ [x]) := by
  obtain ⟨before, j, after, rfl, hc, hdel⟩ := h
  refine ⟨before, j, after ++ [x], by simp, hc, fun k hk => ?_⟩
  rcases List.mem_append.mp hk with hk | hk
  · exact hdel k hk
  · rw [← List.mem_singleton.mp hk] at hx
    exact hx rfl

omit [DecidableEq ι] in
theorem Undisturbed.of_append {calls : ι → Update} {tr tr' : List (ι × RowAccess)} (h : Undisturbed calls (tr ++ tr')) :
    Undisturbed calls tr := by
  intro pre i mid key post heq
  exact h pre i mid key (post ++ tr') (by rw [heq]; simp)

omit [DecidableEq ι] in
/-- An update that ends before the others start disturbs nobody. -/
theorem Undisturbed.in_turn {calls : ι → Update} {tr : List (ι × RowAccess)} (h : Undisturbed calls tr) {i : ι}
    (hi : ∀ x ∈ tr, x.1 ≠ i) (deleted : List Bytes) (key : Bytes) :
    Undisturbed calls ((i, .scan) :: deleted.map (fun k => (i, .delete k)) ++ (i, .put key) :: tr) := by
  intro pre j mid k post heq key' hleaves
  match pre, heq with
  | [], heq =>
    -- the put that ends the stretch would be a second one of the update
    obtain ⟨before, j', after, rfl, -, -⟩ := hleaves
    simp only [List.nil_append, List.cons_append, List.append_assoc, List.cons.injEq, Prod.mk.injEq] at heq
    obtain ⟨⟨rfl, -⟩, heq⟩ := heq
    obtain ⟨l, hl⟩ := append_eq_split (by simp) heq
    have hmem : (i, .put k) ∈ tr := by
      match l, hl with
      | [], hl =>
        rw [(List.cons.inj hl).2]
        simp
      | _ :: l, hl =>
        rw [(List.cons.inj hl).2]
        simp
    exact absurd rfl (hi _ hmem)
  | p :: pre, heq =>
    simp only [List.cons_append, List.append_assoc, List.cons.injEq] at heq
    obtain ⟨l, hl⟩ := append_eq_split (by simp) heq.2
    match l, hl with
    | [], hl => simp at hl
    | _ :: l, hl => exact h l j mid k post (by rw [(List.cons.inj hl).2]; simp) key' hleaves

omit [DecidableEq ι] in
theorem Undisturbed.nil (calls : ι → Update) : Undisturbed calls [] := by
  intro pre i mid key post heq
  simp at heq

/-- The key an update is about to delete. -/
def Stage.target (s : InboxService) : Stage → Option Bytes
  | .replace old _ => some (s.pair old).1
  | _ => none

/-- Between its scan and its put, an update accounts for every row of its
conversation: it is about to delete it, or the row was put since the scan. -/
def Accounts (s : InboxService) (calls : ι → Update) (x : Index ι) (tr : List (ι × RowAccess)) (i : ι) : Prop :=
  ∃ pre mid, tr = pre ++ (i, .scan) :: mid ∧ ∀ e, Row s x.db e → e.conversationId = (calls i).conversation →
    (x.stage i).target s = some (s.pair e).1 ∨ Leaves calls (calls i).conversation (s.pair e).1 mid

structure Single (s : InboxService) (calls : ι → Update) (x : Index ι) (tr : List (ι × RowAccess)) : Prop where
  one : OnePerConversation s x.db
  accounts : ∀ i, x.stage i ≠ .scan → x.stage i ≠ .done → Accounts s calls x tr i

section Single
variable {s : InboxService} {calls : ι → Update} {had : Set ConversationId} {x : Index ι} {tr : List (ι × RowAccess)}

/-- An update accounts for its rows after another's turn, when each is an old
row that the turn does not delete or one it puts. -/
theorem Accounts.other {j : ι} (h : Accounts s calls x tr j) {i : ι} (hij : j ≠ i) {st : Stage} {db : ZeroDb}
    {a : RowAccess} (hrow : ∀ e, Row s db e → e.conversationId = (calls j).conversation →
      (Row s x.db e ∧ a ≠ .delete (s.pair e).1) ∨
        (a = .put (s.pair e).1 ∧ (calls i).conversation = (calls j).conversation)) :
    Accounts s calls ⟨db, Function.update x.stage i st⟩ (tr ++ [(i, a)]) j := by
  obtain ⟨pre, mid, rfl, hacc⟩ := h
  refine ⟨pre, mid ++ [(i, a)], by simp, fun e he hc => ?_⟩
  simp only [Function.update_of_ne hij]
  rcases hrow e he hc with ⟨he, ha⟩ | ⟨rfl, hci⟩
  · rcases hacc e he hc with htarget | hleaves
    · exact .inl htarget
    · exact .inr (hleaves.concat ha)
  · exact .inr ⟨mid, i, [], rfl, hci, fun k hk => absurd hk List.not_mem_nil⟩

theorem Update.plan_found {u : Update} {o : Option InboxEntry} (h : u.plan o ≠ .done) :
    (u.plan o).target s = o.map fun e => (s.pair e).1 := by
  cases u with
  | upsert entry => cases o <;> rfl
  | markRead r =>
    cases o with
    | none => exact absurd rfl h
    | some old =>
      simp only [plan] at h ⊢
      split
      · rfl
      · next hu => exact absurd (if_neg hu) h

/-- The steps of an undisturbed run keep one entry of each conversation. -/
theorem Single.turn (h : Single s calls x tr) (hfits : Fits s calls had x) (i : ι)
    (hu : Undisturbed calls (tr ++ label (Index.turn s calls) x i)) :
    Single s calls (step (Index.turn s calls) x i) (tr ++ label (Index.turn s calls) x i) := by
  have hab := hfits.about i
  rcases Index.turn_cases s calls x i with
    ⟨-, hs, hl⟩ | ⟨hst, hl, hs⟩ | ⟨old, new, hst, hl, hs⟩ | ⟨new, hst, hl, hs⟩
  · rw [hs, hl, List.append_nil]
    exact h
  · rw [hs, hl]
    refine ⟨h.one, fun j hscan hdone => ?_⟩
    by_cases hij : j = i
    · -- the rows are the one that was found, if any
      subst hij
      simp only [Function.update_self] at hdone
      refine ⟨tr, [], rfl, fun e he hc => .inl ?_⟩
      simp only [Function.update_self]
      rw [Update.plan_found hdone]
      have hmem := hfits.indexed.mem_entriesOf.mpr ⟨he, hc⟩
      cases hf : (entriesOf x.db s (calls j).conversation).head? with
      | none =>
        rw [List.head?_eq_none_iff.mp hf] at hmem
        cases hmem
      | some e' =>
        obtain ⟨he', hc'⟩ := hfits.found hf
        rw [h.one e e' he he' (hc.trans hc'.symm)]
        rfl
    · simp only [Function.update_of_ne hij] at hscan hdone
      exact (h.accounts j hscan hdone).other hij fun e he _ => .inl ⟨he, fun ha => by cases ha⟩
  · rw [hs, hl]
    refine ⟨fun e e' he he' => h.one e e' (row_delete.mp he).1 (row_delete.mp he').1, fun j hscan hdone => ?_⟩
    by_cases hij : j = i
    · subst hij
      obtain ⟨pre, mid, rfl, hacc⟩ := h.accounts j (by rw [hst]; exact nofun) (by rw [hst]; exact nofun)
      refine ⟨pre, mid ++ [(j, .delete (s.pair old).1)], by simp, fun e he hc => .inr ?_⟩
      obtain ⟨he, hk⟩ := row_delete.mp he
      rcases hacc e he hc with htarget | hleaves
      · rw [hst] at htarget
        exact absurd (Option.some.inj htarget).symm hk
      · exact hleaves.concat fun ha => hk (RowAccess.delete.inj ha).symm
    · simp only [Function.update_of_ne hij] at hscan hdone
      refine (h.accounts j hscan hdone).other hij fun e he _ => .inl ⟨(row_delete.mp he).1, fun ha => ?_⟩
      exact (row_delete.mp he).2 (RowAccess.delete.inj ha).symm
  · rw [hs, hl]
    rw [hl] at hu
    rw [hst] at hab
    obtain ⟨pre, mid, htr, hacc⟩ := h.accounts i (by rw [hst]; exact nofun) (by rw [hst]; exact nofun)
    -- every row of the conversation is under the key of the put
    have hkey : ∀ e, Row s x.db e → e.conversationId = new.conversationId → (s.pair e).1 = (s.pair new).1 := by
      intro e he hc
      rcases hacc e he (hc.trans hab) with htarget | hleaves
      · rw [hst] at htarget
        cases htarget
      · exact hu pre i mid (s.pair new).1 [] (by rw [htr]) _ hleaves
    refine ⟨fun e e' he he' hc => ?_, fun j hscan hdone => ?_⟩
    · rcases row_put.mp he with rfl | ⟨hold, hne⟩ <;> rcases row_put.mp he' with rfl | ⟨hold', hne'⟩
      · rfl
      · exact absurd (hkey e' hold' hc.symm) hne'
      · exact absurd (hkey e hold hc) hne
      · exact h.one e e' hold hold' hc
    · by_cases hij : j = i
      · subst hij
        simp only [Function.update_self] at hdone
        exact absurd rfl hdone
      · simp only [Function.update_of_ne hij] at hscan hdone
        refine (h.accounts j hscan hdone).other hij fun e he hc => ?_
        rcases row_put.mp he with rfl | ⟨he, -⟩
        · exact .inr ⟨rfl, hab.symm.trans hc⟩
        · exact .inl ⟨he, fun ha => by cases ha⟩

end Single

/-! ## Any interleaving -/

/-- The scans, deletes and puts of a schedule, in order, each with its call. -/
def rowAccesses (t : Threads ι InboxError) (sched : List ι) : List (ι × RowAccess) :=
  (Interleave.trace (Pool.turn ZeroDb.handle) t sched).map fun x => (x.1, StoreOp.rowAccess x.2)

/-- The updates of an owner, under any schedule, are a run in stages. -/
theorem run_index {s : InboxService} {db : ZeroDb} (h : Indexed s db) (calls : ι → Update) (sched : List ι) :
    Sim s calls ((concurrently s db calls).run sched) (Interleave.run (Index.turn s calls) (Index.init db) sched) ∧
      rowAccesses (concurrently s db calls) sched = Interleave.trace (Index.turn s calls) (Index.init db) sched := by
  have hsim : Sim s calls (concurrently s db calls) (Index.init db) := ⟨rfl, fun _ => rfl, h⟩
  obtain ⟨hrun, htr⟩ := run_sim (fun i _ _ hs => hs.turn i) hsim sched
  exact ⟨hrun, htr.symm⟩

/-- What holds after any schedule, and what after one without a disturbance. -/
theorem run_fits {s : InboxService} {db : ZeroDb} (h : Indexed s db) (hone : OnePerConversation s db)
    (calls : ι → Update) (sched : List ι) :
    Fits s calls {c | ∃ e, Row s db e ∧ e.conversationId = c}
        (Interleave.run (Index.turn s calls) (Index.init db) sched) ∧
      (Undisturbed calls (Interleave.trace (Index.turn s calls) (Index.init db) sched) →
        Single s calls (Interleave.run (Index.turn s calls) (Index.init db) sched)
          (Interleave.trace (Index.turn s calls) (Index.init db) sched)) := by
  refine run_inv (I := fun x tr => Fits s calls _ x ∧ (Undisturbed calls tr → Single s calls x tr)) ?_ ?_ sched
  · refine ⟨⟨h, fun i => trivial, fun c hc => .inl hc, fun i entry hi hscan => absurd rfl hscan⟩, fun _ => ?_⟩
    exact ⟨hone, fun i hscan => absurd rfl hscan⟩
  · intro x tr i ⟨hfits, hsingle⟩
    exact ⟨hfits.turn i, fun hu => (hsingle hu.of_append).turn hfits i hu⟩

/-- **One inbox entry per conversation** for any number of updates of an owner,
interleaved in any way, once all have finished: a conversation that had an
entry or was given one has one; and it has only one when nothing done
between the scan and the put of an update leaves an entry of the same
conversation under another timestamp. -/
theorem one_entry_per_conversation {db : ZeroDb} (hempty : db.cf .inboxIndex = .empty) (ops : List Op)
    (s : InboxService) (calls : ι → Update) (sched : List ι)
    (hdone : ∀ i, (((concurrently s (runOps db ops) calls).run sched).result i).isSome) :
    (∀ c, (entriesOf (runOps db ops) s c ≠ [] ∨ ∃ i entry, calls i = .upsert entry ∧ entry.conversationId = c) →
      entriesOf ((concurrently s (runOps db ops) calls).run sched).state s c ≠ []) ∧
    (Undisturbed calls (rowAccesses (concurrently s (runOps db ops) calls) sched) →
      ∀ c, (entriesOf ((concurrently s (runOps db ops) calls).run sched).state s c).length ≤ 1) := by
  have hholds := run_holds hempty ops
  obtain ⟨hsim, htr⟩ := run_index (hholds.indexed s) calls sched
  obtain ⟨hfits, hsingle⟩ := run_fits (hholds.indexed s) (hholds.onePerConversation s) calls sched
  have hstage := fun i => hsim.stage_done (hdone i)
  rw [hsim.db, htr]
  constructor
  · intro c hc
    have hlive : Live s (Interleave.run (Index.turn s calls) (Index.init (runOps db ops)) sched) c := by
      rcases hc with hc | ⟨i, entry, hi, rfl⟩
      · obtain ⟨e, he⟩ := List.exists_mem_of_ne_nil _ hc
        exact hfits.had c ⟨e, (hholds.indexed s).mem_entriesOf.mp he⟩
      · exact hfits.given i entry hi (by rw [hstage i]; exact nofun)
    rcases hlive with ⟨e, he⟩ | ⟨i, new, hi, -⟩
    · exact List.ne_nil_of_mem (hfits.indexed.mem_entriesOf.mpr he)
    · rw [hstage i] at hi
      cases hi
  · intro hu
    exact hfits.indexed.entriesOf_length (hsingle hu).one

/-- Two upserts of a conversation, at different times. -/
def twoUpserts : Bool → Update
  | false => .upsert ⟨⟨Arr.fill 32 7⟩, .dm, 5, 1, ⟨Arr.fill 16 2⟩, Str.empty⟩
  | true => .upsert ⟨⟨Arr.fill 32 7⟩, .dm, 6, 2, ⟨Arr.fill 16 2⟩, Str.empty⟩

def alice : InboxService := ⟨⟨Arr.fill 16 1⟩, ⟨Arr.fill 16 1⟩⟩

/-- One after the other, they leave one entry. -/
theorem one_entry_per_conversation_in_turn :
    let t := concurrently alice ZeroDb.empty twoUpserts
    let sched := [false, false, true, true, true]
    entriesOf (t.run sched).state alice ⟨Arr.fill 32 7⟩ ≠ [] ∧
      (entriesOf (t.run sched).state alice ⟨Arr.fill 32 7⟩).length ≤ 1 := by
  intro t sched
  have hdone : ∀ i, ((t.run sched).result i).isSome := by decide +kernel
  have hacc : rowAccesses t sched =
      [(false, .scan), (false, .put (encodeKey alice.identityId alice.machineId 5 ⟨Arr.fill 32 7⟩)),
        (true, .scan), (true, .delete (encodeKey alice.identityId alice.machineId 5 ⟨Arr.fill 32 7⟩)),
        (true, .put (encodeKey alice.identityId alice.machineId 6 ⟨Arr.fill 32 7⟩))] := by decide +kernel
  have hempty : ZeroDb.empty.cf .inboxIndex = .empty := rfl
  obtain ⟨hlive, hone⟩ := one_entry_per_conversation hempty [] alice twoUpserts sched hdone
  refine ⟨hlive _ (.inr ⟨false, _, rfl, rfl⟩), hone ?_ _⟩
  change Undisturbed twoUpserts (rowAccesses t sched)
  rw [hacc]
  have hlast := (Undisturbed.nil twoUpserts).in_turn (i := true) (by simp)
    [encodeKey alice.identityId alice.machineId 5 ⟨Arr.fill 32 7⟩]
    (encodeKey alice.identityId alice.machineId 6 ⟨Arr.fill 32 7⟩)
  exact hlast.in_turn (i := false) (by simp) [] _

/-- Both scan before either puts, and the conversation has two entries. -/
theorem two_upserts_two_entries :
    let t := concurrently alice ZeroDb.empty twoUpserts
    let sched := [false, true, false, true]
    (∀ i, (t.run sched).result i = some (.ok ())) ∧
      (entriesOf (t.run sched).state alice ⟨Arr.fill 32 7⟩).map (·.lastTs) = [6, 5] ∧
      ¬ ∀ c, (entriesOf (t.run sched).state alice c).length ≤ 1 := by
  intro t sched
  have htwo : (entriesOf (t.run sched).state alice ⟨Arr.fill 32 7⟩).map (·.lastTs) = [6, 5] := by decide +kernel
  refine ⟨by decide +kernel, htwo, fun h => ?_⟩
  have hlen := h ⟨Arr.fill 32 7⟩
  rw [← List.length_map (f := fun e : InboxEntry => e.lastTs), htwo] at hlen
  exact absurd hlen (by decide)

end Sim

end Inbox

end ZeroSdk
