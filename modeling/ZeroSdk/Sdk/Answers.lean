/-
What a read tells of the store. Asked for one value, it returns what is under
the key made of the ids it was given; asked for many, it returns every value
of the owner, the scope, the conversation or the group it was given, or the
page of them, or their totals (`Call.Tells`). This is said of the store's
entries, with no word of iterators and loops. A read alone on a store of
entries of their own kinds is `Told` so much, and among other clients it is
told what a store of the run held (`Call.heard`).
-/
import ZeroSdk.Sdk.Snapshots

namespace ZeroSdk
open Prog
open ZeroDb (handleAt)

/-- The list is that of all values with `Q` that the store holds, each under
its own key, in the order of the keys. -/
structure AllOf {α : Type} (db : ZeroDb) (cf : Cf) (pair : α → Bytes × Bytes) (Q : α → Prop) (l : List α) : Prop where
  mem : ∀ a, a ∈ l ↔ Q a ∧ db.get cf (pair a).1 = some (pair a).2
  ascending : l.Pairwise fun a b => (pair a).1 < (pair b).1

/-- What the program returns alone on the store is a `Q`. -/
def Told {ε α : Type} (db : ZeroDb) (p : DbProg ε α) (Q : α → Prop) : Prop := ∀ a, (db.run p).1 = .ok a → Q a

section Told
variable {ε ε' α : Type} {db : ZeroDb} {p : DbProg ε α} {Q : α → Prop} {a : α}

theorem Told.of_run (h : (db.run p).1 = .ok a) (ha : Q a) : Told db p Q := by
  intro b hb
  rw [h] at hb
  cases hb
  exact ha

section Point
variable {cf : Cf} {key : Bytes} {enc : α → Bytes}

/-- One value, or none. -/
theorem told_find {p : DbProg ε (Option α)} (hnone : db.get cf key = none → (db.run p).1 = .ok none)
    (hsome : ∀ v, db.get cf key = some v → ∃ a, v = enc a ∧ (db.run p).1 = .ok (some a)) :
    Told db p fun o => o.map enc = db.get cf key := by
  cases hv : db.get cf key with
  | none => exact .of_run (hnone hv) rfl
  | some v =>
    obtain ⟨a, rfl, ha⟩ := hsome v hv
    exact .of_run ha rfl

/-- One value that has to be there. -/
theorem told_present {e : ε} (hnone : db.get cf key = none → (db.run p).1 = .error e)
    (hsome : ∀ v, db.get cf key = some v → ∃ a, v = enc a ∧ (db.run p).1 = .ok a) :
    Told db p fun a => db.get cf key = some (enc a) := by
  cases hv : db.get cf key with
  | none =>
    intro a ha
    rw [hnone hv] at ha
    cases ha
  | some v =>
    obtain ⟨a, rfl, ha⟩ := hsome v hv
    exact .of_run ha rfl

end Point

/-- A read whose errors the facade wraps. -/
theorem Looks.tells {V : ZeroDb → Prop} {Q : ZeroDb → α → Prop} (hp : Looks V p)
    (hV : ∀ db, V db → Contents Stored db) (htold : ∀ {db}, Contents Stored db → Told db p (Q db)) (g : ε → ε') :
    (p.mapErr g).Hears handleAt V fun r => ∀ a, r = .ok a → ∃ db, V db ∧ Q db a := by
  refine Hears.mapErr hp fun r hr a ha => ?_
  cases r with
  | error e => cases ha
  | ok b =>
    cases ha
    obtain ⟨db, hdb, hrun⟩ := hr a rfl
    exact ⟨db, hdb, htold (hV db hdb) a hrun⟩

/-- Where every entry under the keys with `sel` is one of the values with `Q`,
and every value with `Q` has such a key. -/
theorem AllOf.of_contents {P : Cf → Bytes → Bytes → Prop} (hdb : Contents P db) {cf : Cf} {sel : Bytes → Bool}
    {pair : α → Bytes × Bytes} (c : Postcard.Codec α) (hval : ∀ a, (pair a).2 = c.enc a)
    (hread : ∀ k v, P cf k v → sel k = true → ∃ a, pair a = (k, v) ∧ Q a) (hkey : ∀ a, Q a → sel (pair a).1 = true) :
    ∃ l, (db.cf cf).select sel = l.map pair ∧ AllOf db cf pair Q l := by
  have hinj : Function.Injective pair := fun a b hab => Postcard.enc_injective c (by rw [← hval, ← hval, hab])
  have hfound : ∀ k v, (db.cf cf).get k = some v → sel k = true →
      ∃ a, pair a = (k, v) ∧ Q a ∧ db.get cf (pair a).1 = some (pair a).2 := by
    intro k v hv hk
    obtain ⟨a, ha, hQ⟩ := hread k v (hdb cf k v hv) hk
    exact ⟨a, ha, hQ, by rw [ha]; exact hv⟩
  obtain ⟨l, hl, hmem, hsorted⟩ := OrdMap.select_eq_map hinj hfound fun a ha => ⟨ha.2, hkey a ha.1⟩
  exact ⟨l, hl, hmem, hsorted⟩

end Told

variable {db : ZeroDb} (hdb : Contents Stored db)
include hdb

/-! ## Contacts and sectors -/

namespace ContactStore

/-- The key and the value of a contact of an owner. -/
def pair (owner : IdentityId) (contact : Contact) : Bytes × Bytes :=
  (makeKey owner contact.identityId, Contact.codec.enc contact)

theorem told_getContact (store : ContactStore) (id : IdentityId) : Told db (store.getContact id) fun o =>
    o.map Contact.codec.enc = db.get .contacts (makeKey store.owner id) := by
  refine told_find (fun hv => by simp only [run_getContact, hv]) fun v hv => ?_
  obtain ⟨owner, contact, -, rfl, -⟩ := hdb .contacts _ v hv
  refine ⟨contact, rfl, ?_⟩
  simp only [run_getContact, hv, Postcard.fromBytes_enc]
  rfl

theorem run_listContacts (store : ContactStore) : ∃ l, db.run store.listContacts = (.ok l, db) ∧
    AllOf db .contacts (pair store.owner) (fun _ => True) l := by
  have hread : ∀ k v, Stored .contacts k v → (ownerPrefix store.owner).isPrefixOf k = true →
      ∃ contact, pair store.owner contact = (k, v) ∧ True := by
    rintro k v ⟨owner, contact, rfl, rfl, -⟩ hk
    rw [ownerPrefix_isPrefix_iff.mp (List.isPrefixOf_iff_prefix.mp hk)]
    exact ⟨contact, rfl, trivial⟩
  obtain ⟨l, hl, hall⟩ := AllOf.of_contents hdb Contact.codec (fun _ => rfl) hread
    fun contact _ => List.isPrefixOf_iff_prefix.mpr (ownerPrefix_isPrefix_iff.mpr rfl)
  rw [← takeWhile_isPrefixOf] at hl
  refine ⟨l, ?_, hall⟩
  have hloop : listContactsLoop (ownerPrefix store.owner)
      (((db.cf .contacts).forwardFrom (ownerPrefix store.owner)).map .ok) = .ok l := by
    rw [listContactsLoop_eq]
    exact decodeWhile_ok (fun c => by rw [pair, Postcard.fromBytes_enc]; rfl) hl
  simp only [listContacts, Prog.run_bind, run_iteratorCf, Prog.run_lift, ZeroDb.items, hloop]

theorem told_listContacts (store : ContactStore) : Told db store.listContacts
    (AllOf db .contacts (pair store.owner) fun _ => True) := by
  obtain ⟨l, hrun, hall⟩ := store.run_listContacts hdb
  exact .of_run (congrArg Prod.fst hrun) hall

end ContactStore

namespace ZeroDb

theorem told_getSector (i m : Str) (id : SectorId) : Told db (getSector i m id) fun o =>
    o.map encodeSector = db.get .sectors (makeSectorKey i m id) := by
  refine told_find (fun hv => ?_) fun v hv => ?_
  · simp only [getSector, Prog.run_bind, run_getRaw, hv, Prog.run_pure]
  · obtain ⟨sector, hpair⟩ := hdb .sectors _ v hv
    obtain ⟨-, rfl⟩ := Prod.mk.inj hpair
    refine ⟨sector, rfl, ?_⟩
    simp only [getSector, Prog.run_bind, run_getRaw, hv, Prog.run_lift, SectorMap.decodeSector_encodeSector, Prog.run_pure]

theorem told_iterChain (i m : Str) : Told db (iterChain i m)
    (AllOf db .sectors Sector.pair fun s => makeScopePrefix i m <+: s.pair.1) := by
  have hread : ∀ k v, Stored .sectors k v → (makeScopePrefix i m).isPrefixOf k = true →
      ∃ s : Sector, s.pair = (k, v) ∧ makeScopePrefix i m <+: s.pair.1 := by
    rintro k v ⟨sector, hpair⟩ hk
    refine ⟨sector, hpair.symm, ?_⟩
    rw [← hpair]
    exact List.isPrefixOf_iff_prefix.mp hk
  obtain ⟨l, hl, hall⟩ := AllOf.of_contents hdb Sector.codec (fun _ => rfl) hread
    fun sector hpre => List.isPrefixOf_iff_prefix.mpr hpre
  rw [← takeWhile_isPrefixOf] at hl
  refine .of_run ?_ hall
  simp only [iterChain, Prog.run_bind, run_iteratorCf, Prog.run_lift, iterChainLoop_eq]
  exact decodeWhile_ok (fun s => SectorMap.decodeSector_encodeSector s) hl

end ZeroDb

/-! ## The outbox -/

namespace Outbox

theorem Stores.of_contents : ∃ q, Stores db q := by
  refine ⟨fun id => (db.get .outbox id.bytes.val).bind fun v => (decodeEntry v).toOption,
    fun k v hv => ?_, fun id => ?_, fun id e he => ?_⟩
  · obtain ⟨entry, hk, -⟩ := hdb .outbox k v hv
    exact ⟨entry.sectorId, hk⟩
  · cases hv : db.get .outbox id.bytes.val with
    | none => rfl
    | some v =>
      obtain ⟨entry, -, rfl⟩ := hdb .outbox _ v hv
      rw [Option.bind_some, decodeEntry_enc]
      rfl
  · obtain ⟨v, hv, hdec⟩ := Option.bind_eq_some_iff.mp he
    obtain ⟨entry, hk, rfl⟩ := hdb .outbox _ v hv
    rw [decodeEntry_enc] at hdec
    cases hdec
    exact (sectorKey_inj.mp hk).symm

omit hdb in
theorem Stores.queued_iff {q : Queue} (h : Stores db q) (e : OutboxEntry) :
    q e.sectorId = some e ↔ db.get .outbox (pair e).1 = some (pair e).2 := by
  rw [pair, h.content]
  cases q e.sectorId with
  | none => simp
  | some e' => simp [(Postcard.enc_injective OutboxEntry.codec).eq_iff]

theorem told_count : Told db count fun n => ∃ all, AllOf db .outbox pair (fun _ => True) all ∧ n = all.length := by
  obtain ⟨q, hq⟩ := Stores.of_contents hdb
  obtain ⟨all, hentries, hmem, hsorted⟩ := hq.lists
  have hall : AllOf db .outbox pair (fun _ => True) all :=
    ⟨fun e => (hmem e).trans ((hq.queued_iff e).trans (and_iff_right trivial).symm), hsorted⟩
  refine .of_run (congrArg Prod.fst (run_count db)) ⟨all, hall, ?_⟩
  rw [hentries, List.length_map]

theorem told_dequeueDue (nowMs : UInt64) : Told db (dequeueDue nowMs) fun l =>
    (∀ e, e ∈ l ↔ db.get .outbox (pair e).1 = some (pair e).2 ∧ e.nextAttemptMs ≤ nowMs) ∧ l.Pairwise Sooner := by
  obtain ⟨q, hq⟩ := Stores.of_contents hdb
  obtain ⟨due, hrun, hmem, hsorted⟩ := hq.due nowMs
  exact .of_run (congrArg Prod.fst hrun) ⟨fun e => (hmem e).trans (and_congr_left' (hq.queued_iff e)), hsorted⟩

end Outbox

/-! ## Direct messages -/

namespace Dm

theorem DmService.told_resumeConversation (c : ConversationId) : Told db (resumeConversation c) fun conv =>
    db.get .chains c.storageKey = some (Conversation.codec.enc conv) := by
  refine told_present (e := .unknownConversation c) (fun hv => ?_) fun v hv => ?_
  · simp only [resumeConversation, Prog.run_bind, Prog.run_mapErr, run_getRaw, Except.mapError, hv, Prog.run_okOr_none]
  · obtain ⟨conv, -, rfl⟩ := stored_record (hdb .chains _ v hv)
    refine ⟨conv, rfl, ?_⟩
    simp only [resumeConversation, Prog.run_bind, Prog.run_mapErr, run_getRaw, Except.mapError, hv, Prog.run_okOr_some,
      Prog.run_lift, decodeConversation_enc]

theorem DmService.told_getMessage (c : ConversationId) (id : MessageId) : Told db (getMessage c id) fun o =>
    o.map Message.codec.enc = db.get .chains (makeMsgKey c id) := by
  refine told_find (fun hv => ?_) fun v hv => ?_
  · simp only [getMessage, Prog.run_bind, run_getCf, hv, Prog.run_pure]
  · obtain ⟨msg, -, -, rfl⟩ := stored_message (hdb .chains _ v hv)
    refine ⟨msg, rfl, ?_⟩
    simp only [getMessage, Prog.run_bind, run_getCf, hv, Prog.run_lift, decodeMessage_enc, Prog.run_pure]

/-- What a paginator returns where there is room for its limit: the first
`most` messages of the conversation before the cursor, the newest first. -/
def Paged (db : ZeroDb) (c : ConversationId) (before : Option MessageId) (limit most : Nat) (o : Option (List Message)) :
    Prop :=
  ∃ all, AllOf db .chains msgPair (fun m => m.conversationId = c) all ∧
    (HasCapacity limit → o = some (Paging.page (·.id) all.reverse most before))

/-- The messages of a conversation, and the pages `history` makes of them. -/
theorem all_messages (c : ConversationId) : ∃ all, AllOf db .chains msgPair (fun m => m.conversationId = c) all ∧
    ∀ before n, 1 ≤ n → HasCapacity n →
      (db.run (DmService.history c before n)).1 = .ok (some (Paging.page (·.id) all.reverse n before)) := by
  have hw : WellKeyed db := fun k v hv => (hdb .chains k v hv).imp_left fun ⟨conv, hk, _⟩ => ⟨_, hk⟩
  have hread : ∀ k v, Stored .chains k v → (makeMsgPrefix c).isPrefixOf k = true →
      ∃ m, msgPair m = (k, v) ∧ m.conversationId = c := by
    intro k v hv hk
    obtain ⟨m, rfl, hc, rfl⟩ := DmService.stored_of_isPrefix hv (List.isPrefixOf_iff_prefix.mp hk)
    exact ⟨m, by rw [msgPair, hc], hc⟩
  obtain ⟨all, hl, hall⟩ := AllOf.of_contents hdb Message.codec (fun _ => rfl) hread fun m hm =>
    List.isPrefixOf_iff_prefix.mpr (makeMsgPrefix_isPrefix_iff.mpr hm.symm)
  exact ⟨all, hall, fun before n hn hcap => run_history hw hl (fun m hm => ((hall.mem m).mp hm).1) hn hcap before⟩

theorem DmService.told_history (c : ConversationId) (before : Option MessageId) (limit : Nat) :
    Told db (history c before limit) (Paged db c before limit (max limit 1)) := by
  obtain ⟨all, hall, hpage⟩ := all_messages hdb c
  refine fun o ho => ⟨all, hall, fun hcap => ?_⟩
  rcases Nat.eq_zero_or_pos limit with rfl | hpos
  · rw [history_zero, hpage before 1 le_rfl (by decide)] at ho
    exact (Except.ok.inj ho).symm
  · rw [hpage before limit hpos hcap] at ho
    rw [max_eq_left hpos]
    exact (Except.ok.inj ho).symm

theorem told_paginateMessages (c : ConversationId) (before : Option MessageId) (limit : Nat) :
    Told db (paginateMessages c before limit) (Paged db c before limit limit) := by
  rcases Nat.eq_zero_or_pos limit with rfl | hpos
  · obtain ⟨all, hall, -⟩ := all_messages hdb c
    exact .of_run (a := some []) rfl ⟨all, hall, fun _ => rfl⟩
  · have hhistory := DmService.told_history hdb c before limit
    rw [paginateMessages_eq c before (Nat.ne_of_gt hpos)]
    rwa [max_eq_left hpos] at hhistory

end Dm

/-! ## Groups -/

namespace Group

theorem told_getManifest (g : GroupId) : Told db (getManifest g) fun man =>
    db.get .groups g.bytes.val = some (encodeManifest man) := by
  refine told_present (e := .groupNotFound g) (fun hv => ?_) fun v hv => ?_
  · simp only [getManifest, Prog.run_bind, Prog.run_mapErr, run_getRaw, Except.mapError, hv, Prog.run_okOr_none]
  · obtain ⟨man, -, rfl⟩ := stored_manifest (hdb .groups _ v hv)
    refine ⟨man, rfl, ?_⟩
    simp only [getManifest, Prog.run_bind, Prog.run_mapErr, run_getRaw, Except.mapError, hv, Prog.run_okOr_some,
      Prog.run_lift, decodeManifest_encodeManifest]

theorem told_loadManifest (g : GroupId) : Told db (loadManifest g) fun o =>
    o.map encodeManifest = db.get .groups g.bytes.val := by
  refine told_find (fun hv => ?_) fun v hv => ?_
  · simp only [loadManifest, Prog.run_bind, Prog.run_mapErr, run_getRaw, Except.mapError, hv, Prog.run_pure]
  · obtain ⟨man, -, rfl⟩ := stored_manifest (hdb .groups _ v hv)
    refine ⟨man, rfl, ?_⟩
    simp only [loadManifest, Prog.run_bind, Prog.run_mapErr, run_getRaw, Except.mapError, hv, Prog.run_lift,
      decodeManifest_encodeManifest, Prog.run_pure]

theorem told_getMessage (g : GroupId) (id : GroupMessageId) : Told db (getMessage g id) fun o =>
    o.map GroupMessage.codec.enc = db.get .groups (makeMsgKey g id) := by
  refine told_find (fun hv => ?_) fun v hv => ?_
  · simp only [getMessage, Prog.run_bind, Prog.run_mapErr, run_getRaw, Except.mapError, hv, Prog.run_pure]
  · obtain ⟨msg, -, -, rfl⟩ := stored_message (hdb .groups _ v hv)
    refine ⟨msg, rfl, ?_⟩
    simp only [getMessage, Prog.run_bind, Prog.run_mapErr, run_getRaw, Except.mapError, hv, Prog.run_lift,
      decodeMessage_enc, Prog.run_pure]

/-- The key and the value of a message. -/
def msgPair (m : GroupMessage) : Bytes × Bytes := (makeMsgKey m.groupId m.id, GroupMessage.codec.enc m)

theorem told_listMessages (g : GroupId) (before : Option GroupMessageId) (limit : Nat) :
    Told db (listMessages g before limit) fun l => ∃ all sorted : List GroupMessage,
      AllOf db .groups msgPair (fun m => m.groupId = g) all ∧ sorted.Perm (all.filter (isBefore before)) ∧
        sorted.Pairwise msgOrder ∧ l = sorted.take limit := by
  have hread : ∀ k v, Stored .groups k v → (makeMsgPrefix g).isPrefixOf k = true →
      ∃ m, msgPair m = (k, v) ∧ m.groupId = g := by
    intro k v hv hk
    rw [List.isPrefixOf_iff_prefix] at hk
    rcases hv with ⟨man, rfl, -⟩ | ⟨msg, rfl, rfl⟩
    · exact absurd hk (not_msgPrefix_groupKey g man.groupId)
    · exact ⟨msg, rfl, (makeMsgPrefix_isPrefix_iff.mp hk).symm⟩
  obtain ⟨l, hl, hall⟩ := AllOf.of_contents hdb GroupMessage.codec (fun _ => rfl) hread fun m hm =>
    List.isPrefixOf_iff_prefix.mpr (makeMsgPrefix_isPrefix_iff.mpr hm.symm)
  have hstores : Stores db g l := by rw [Stores, hl, List.map_map]; rfl
  refine .of_run (congrArg Prod.fst (run_listMessages hstores before limit)) ⟨l, _, hall, ?_, ?_, rfl⟩
  · exact List.perm_insertionSort _ _
  · exact List.pairwise_insertionSort msgOrder _

end Group

/-! ## The inbox -/

namespace Inbox.InboxService

theorem all_rows (s : InboxService) : ∃ all, AllOf db .inboxIndex s.pair (fun _ => True) all ∧ Answers db s all := by
  have hread : ∀ k v, Stored .inboxIndex k v → s.pre.isPrefixOf k = true → ∃ e, s.pair e = (k, v) ∧ True := by
    rintro k v ⟨s', e, hpair⟩ hk
    have hk' : s.pre <+: (s'.pair e).1 := by
      rw [← hpair]
      exact List.isPrefixOf_iff_prefix.mp hk
    rw [pre_isPrefix_iff.mp hk', hpair]
    exact ⟨e, rfl, trivial⟩
  obtain ⟨l, hl, hall⟩ := AllOf.of_contents hdb InboxEntry.codec (fun _ => rfl) hread fun _ _ =>
    List.isPrefixOf_iff_prefix.mpr (pre_isPrefix_iff.mpr rfl)
  exact ⟨l, hall, answers_of_stored hl⟩

theorem told_listInbox (s : InboxService) (limit : Option Nat) : Told db (s.listInbox limit) fun l =>
    ∃ all, AllOf db .inboxIndex s.pair (fun _ => True) all ∧ l = all.take (limit.getD 50) := by
  obtain ⟨all, hall, hans⟩ := s.all_rows hdb
  exact .of_run (hans.list limit) ⟨all, hall, rfl⟩

theorem told_unreadTotal (s : InboxService) : Told db s.unreadTotal fun total =>
    ∃ all, AllOf db .inboxIndex s.pair (fun _ => True) all ∧ total = UInt64.ofNat (unreadSum all) := by
  obtain ⟨all, hall, hans⟩ := s.all_rows hdb
  exact .of_run hans.total ⟨all, hall, rfl⟩

theorem told_stats (s : InboxService) : Told db s.stats fun st =>
    ∃ all, AllOf db .inboxIndex s.pair (fun _ => True) all ∧ st = ⟨UInt64.ofNat (unreadSum all), all.length⟩ := by
  obtain ⟨all, hall, hans⟩ := s.all_rows hdb
  exact .of_run hans.stats ⟨all, hall, rfl⟩

end Inbox.InboxService

/-! ## Every read -/

omit hdb

namespace Sdk

def ContactCall.Tells (db : ZeroDb) : (c : ContactCall) → c.Reply → Prop
  | .getContact store id, o => o.map Contact.codec.enc = db.get .contacts (ContactStore.makeKey store.owner id)
  | .listContacts store, l => AllOf db .contacts (ContactStore.pair store.owner) (fun _ => True) l
  | .addContact _ _, _ | .removeContact _ _, _ => True

def SectorCall.Tells (db : ZeroDb) : (c : SectorCall) → c.Reply → Prop
  | .getSector i m id, o => o.map encodeSector = db.get .sectors (makeSectorKey i m id)
  | .iterChain i m, l => AllOf db .sectors Sector.pair (fun s => makeScopePrefix i m <+: s.pair.1) l
  | .putSector _, _ | .deleteSector _ _ _, _ => True

def OutboxCall.Tells (db : ZeroDb) : (c : OutboxCall) → c.Reply → Prop
  | .count, n => ∃ all, AllOf db .outbox Outbox.pair (fun _ => True) all ∧ n = all.length
  | .dequeueDue nowMs, l =>
    (∀ e, e ∈ l ↔ db.get .outbox (Outbox.pair e).1 = some (Outbox.pair e).2 ∧ e.nextAttemptMs ≤ nowMs) ∧
      l.Pairwise Outbox.Sooner
  | .op _, _ => True

def DmCall.Tells (db : ZeroDb) : (c : DmCall) → c.Reply → Prop
  | .resumeConversation c, conv => db.get .chains c.storageKey = some (Dm.Conversation.codec.enc conv)
  | .history c before limit, o => Dm.Paged db c before limit (max limit 1) o
  | .paginateMessages c before limit, o => Dm.Paged db c before limit limit o
  | .getMessage c id, o => o.map Dm.Message.codec.enc = db.get .chains (Dm.makeMsgKey c id)
  | _, _ => True

def GroupCall.Tells (db : ZeroDb) : (c : GroupCall) → c.Reply → Prop
  | .getManifest g, man => db.get .groups g.bytes.val = some (Group.encodeManifest man)
  | .loadManifest g, o => o.map Group.encodeManifest = db.get .groups g.bytes.val
  | .getMessage g id, o => o.map Group.GroupMessage.codec.enc = db.get .groups (Group.makeMsgKey g id)
  | .listMessages g before limit, l => ∃ all sorted : List Group.GroupMessage,
    AllOf db .groups Group.msgPair (fun m => m.groupId = g) all ∧ sorted.Perm (all.filter (Group.isBefore before)) ∧
      sorted.Pairwise Group.msgOrder ∧ l = sorted.take limit
  | _, _ => True

def InboxCall.Tells (db : ZeroDb) : (c : InboxCall) → c.Reply → Prop
  | .listInbox s limit, l => ∃ all, AllOf db .inboxIndex s.pair (fun _ => True) all ∧ l = all.take (limit.getD 50)
  | .unreadTotal s, total =>
    ∃ all, AllOf db .inboxIndex s.pair (fun _ => True) all ∧ total = UInt64.ofNat (Inbox.unreadSum all)
  | .stats s, st =>
    ∃ all, AllOf db .inboxIndex s.pair (fun _ => True) all ∧ st = ⟨UInt64.ofNat (Inbox.unreadSum all), all.length⟩
  | .upsert _ _, _ | .markRead _ _, _ => True

/-- The reply is what the store holds of what was asked for. A call that
writes is asked for nothing. -/
def Call.Tells (db : ZeroDb) : (c : Call) → c.Reply → Prop
  | .contact c => c.Tells db
  | .sector c => c.Tells db
  | .outbox c => c.Tells db
  | .dm c => c.Tells db
  | .group c => c.Tells db
  | .inbox c => c.Tells db

/-- What a call returns tells what the store held at a moment of the run. -/
theorem Call.heard (blake3 : Bytes → Arr 32) {V : ZeroDb → Prop} (hV : ∀ db, V db → Contents Stored db)
    {start : ZeroDb} (hstart : V start) (c : Call) :
    (c.prog blake3).Hears handleAt V fun r => ∀ a, r = .ok a → ∃ db, V db ∧ c.Tells db a := by
  have hwrite : (∀ a, c.Tells start a) →
      (c.prog blake3).Hears handleAt V fun r => ∀ a, r = .ok a → ∃ db, V db ∧ c.Tells db a := fun hc =>
    Hears.always.mono fun _ _ a _ => ⟨start, hstart, hc a⟩
  cases c with
  | contact c =>
    cases c with
    | getContact store id => exact (store.looks_getContact id).tells hV (fun h => store.told_getContact h id) _
    | listContacts store => exact store.looks_listContacts.tells hV (fun h => store.told_listContacts h) _
    | _ => exact hwrite fun _ => trivial
  | sector c =>
    cases c with
    | getSector i m id => exact (ZeroDb.looks_getSector i m id).tells hV (fun h => ZeroDb.told_getSector h i m id) _
    | iterChain i m => exact (ZeroDb.looks_iterChain i m).tells hV (fun h => ZeroDb.told_iterChain h i m) _
    | _ => exact hwrite fun _ => trivial
  | outbox c =>
    cases c with
    | op o => exact hwrite fun _ => trivial
    | count => exact Outbox.looks_count.tells hV Outbox.told_count _
    | dequeueDue nowMs => exact (Outbox.looks_dequeueDue nowMs).tells hV (fun h => Outbox.told_dequeueDue h nowMs) _
  | dm c =>
    cases c with
    | resumeConversation c =>
      exact (Dm.DmService.looks_resumeConversation c).tells hV (fun h => Dm.DmService.told_resumeConversation h c) _
    | history c before limit =>
      exact (Dm.DmService.looks_history c before limit).tells hV (fun h => Dm.DmService.told_history h c before limit) _
    | paginateMessages c before limit =>
      exact (Dm.looks_paginateMessages hstart c before limit).tells hV
        (fun h => Dm.told_paginateMessages h c before limit) _
    | getMessage c id => exact (Dm.DmService.looks_getMessage c id).tells hV (fun h => Dm.DmService.told_getMessage h c id) _
    | _ => exact hwrite fun _ => trivial
  | group c =>
    cases c with
    | getManifest g => exact (Group.looks_getManifest g).tells hV (fun h => Group.told_getManifest h g) _
    | loadManifest g => exact (Group.looks_loadManifest g).tells hV (fun h => Group.told_loadManifest h g) _
    | getMessage g id => exact (Group.looks_getMessage g id).tells hV (fun h => Group.told_getMessage h g id) _
    | listMessages g before limit =>
      exact (Group.looks_listMessages g before limit).tells hV (fun h => Group.told_listMessages h g before limit) _
    | _ => exact hwrite fun _ => trivial
  | inbox c =>
    cases c with
    | listInbox s limit => exact (s.looks_listInbox limit).tells hV (fun h => s.told_listInbox h limit) _
    | unreadTotal s => exact s.looks_unreadTotal.tells hV (fun h => s.told_unreadTotal h) _
    | stats s => exact s.looks_stats.tells hV (fun h => s.told_stats h) _
    | _ => exact hwrite fun _ => trivial

end Sdk

end ZeroSdk
