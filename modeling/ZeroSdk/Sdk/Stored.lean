/-
What is in the store. An entry of each column family has one form: the
encoding of a value under the key made of that value's own ids (`Stored`).
Here it is shown, function by function, that the services of the address
book, the sectors, the outbox and the inbox write nothing else, from any
store of such entries and in whatever way RocksDB fails, and that what they
read from such a store is readable and is what was asked for.

The errors that would blame a stored value are set apart (`Expected` is all
others), so that "returns an expected error, or ..." says that no stored
value was unreadable.
-/
import ZeroSdk.Inbox.Refine
import ZeroSdk.Sdk.Calls
import ZeroSdk.Storage.RetryQueue

namespace ZeroSdk
open Prog
open ZeroDb (handleAt)

/-- What an entry of each column family is. Nothing writes `CF_META`. -/
def Stored : Cf → Bytes → Bytes → Prop
  | .contacts, k, v => ∃ (owner : IdentityId) (contact : Contact), k = ContactStore.makeKey owner contact.identityId ∧
      v = Contact.codec.enc contact ∧ contact.label.bytes.length ≤ 64
  | .sectors, k, v => ∃ sector : Sector, (k, v) = sector.pair
  | .outbox, k, v => ∃ entry : OutboxEntry, k = entry.sectorId.bytes.val ∧ v = OutboxEntry.codec.enc entry
  | .chains, k, v => (∃ conv : Dm.Conversation, k = conv.conversationId.storageKey ∧ v = Dm.Conversation.codec.enc conv) ∨
      ∃ msg : Dm.Message, k = Dm.makeMsgKey msg.conversationId msg.id ∧ v = Dm.Message.codec.enc msg
  | .groups, k, v => (∃ man : Group.GroupManifest, k = man.groupId.bytes.val ∧ v = Group.encodeManifest man) ∨
      ∃ msg : Group.GroupMessage, k = Group.makeMsgKey msg.groupId msg.id ∧ v = Group.GroupMessage.codec.enc msg
  | .inboxIndex, k, v => ∃ (s : Inbox.InboxService) (entry : Inbox.InboxEntry), (k, v) = s.pair entry
  | .metadata, _, _ => False

/-! ## Errors that do not blame a stored value -/

def ContactError.Expected : ContactError → Prop
  | .storage e => e.Expected
  | .labelTooLong _ => True
  | .codec _ => False

def ListContactsError.Expected : ListContactsError → Prop
  | .codec (.inl _) => False
  | .codec (.inr _) => True

def Inbox.InboxError.Expected : Inbox.InboxError → Prop
  | .storage e => e.Expected
  | .codec _ => False

/-! ## Contacts -/

namespace ContactStore

theorem makeKey_inj {o o' i i' : IdentityId} (h : makeKey o i = makeKey o' i') : o = o' ∧ i = i' := by
  obtain ⟨ho, hi⟩ := List.append_inj h (o.bytes.property.trans o'.bytes.property.symm)
  cases o; cases o'; cases i; cases i'
  exact ⟨by simpa [Subtype.ext_iff] using ho, by simpa [Subtype.ext_iff] using hi⟩

theorem ownerPrefix_isPrefix_iff {o o' i : IdentityId} : ownerPrefix o <+: makeKey o' i ↔ o = o' := by
  constructor
  · rintro ⟨t, ht⟩
    obtain ⟨ho, -⟩ := List.append_inj ht (o.bytes.property.trans o'.bytes.property.symm)
    cases o; cases o'
    simpa [ownerPrefix, Subtype.ext_iff] using ho
  · rintro rfl
    exact List.prefix_append _ _

theorem makeKey_lt_iff {o i i' : IdentityId} : makeKey o i < makeKey o i' ↔ i.bytes < i'.bytes :=
  Bytes.append_left_lt_iff

theorem safe_addContact (store : ContactStore) (contact : Contact) :
    (store.addContact contact).Safe handleAt (Contents Stored)
      (Returns ContactError.Expected fun _ => contact.label.bytes.length ≤ 64) := by
  unfold addContact
  split
  · exact .ret trivial
  · next hlabel =>
    have hstored : Stored .contacts (makeKey store.owner contact.identityId) (Contact.codec.enc contact) :=
      ⟨store.owner, contact, rfl, rfl, by omega⟩
    refine (safe_putRaw hstored).mapErr fun r hr => ?_
    cases r with
    | error e => exact hr
    | ok u =>
      change contact.label.bytes.length ≤ 64
      omega

theorem safe_getContact (store : ContactStore) (id : IdentityId) :
    (store.getContact id).Safe handleAt (Contents Stored) (Returns ContactError.Expected fun o =>
      ∀ contact, o = some contact → contact.identityId = id ∧ contact.label.bytes.length ≤ 64) := by
  refine safe_getRaw.attempted.andThen fun r hr => ?_
  cases r with
  | error e => exact .ret hr
  | ok b =>
    cases b with
    | none => exact .ret fun contact hc => by cases hc
    | some v =>
      obtain ⟨owner, contact, hk, hv, hlabel⟩ := hr v rfl
      obtain ⟨-, hid⟩ := makeKey_inj hk
      change Safe _ _ _ (Prog.bind (lift ((Postcard.fromBytes Contact.codec v).mapError ContactError.codec)) _)
      rw [hv, Postcard.fromBytes_enc]
      refine .ret fun c hc => ?_
      cases hc
      exact ⟨hid.symm, hlabel⟩

theorem safe_removeContact (store : ContactStore) (id : IdentityId) :
    (store.removeContact id).Safe handleAt (Contents Stored) (Returns ContactError.Expected fun _ => True) :=
  safe_deleteRaw.mapError fun _ he => he

/-- What `list_contacts` returns: ascending ids, each with a short label. -/
structure Listed (l : List Contact) : Prop where
  ascending : l.Pairwise fun a b => a.identityId.bytes < b.identityId.bytes
  label : ∀ c ∈ l, c.label.bytes.length ≤ 64

theorem listContactsLoop_eq (pre : Bytes) (items : List (Except RocksError (Bytes × Bytes))) :
    listContactsLoop pre items = decodeWhile pre.isPrefixOf
      (fun v => (Postcard.fromBytes Contact.codec v).mapError fun e => .codec (.inl e)) (fun e => .codec (.inr e)) items := by
  induction items with
  | nil => rfl
  | cons x items ih =>
    cases x with
    | error e => rfl
    | ok e =>
      simp only [listContactsLoop, decodeWhile, ih]
      cases pre.isPrefixOf e.1 with
      | false => rfl
      | true => cases Postcard.fromBytes Contact.codec e.2 <;> rfl

theorem safe_listContacts (store : ContactStore) :
    store.listContacts.Safe handleAt (Contents Stored) (Returns ListContactsError.Expected Listed) := by
  refine safe_iteratorCf.andThen fun items hitems => .ret ?_
  rw [listContactsLoop_eq]
  refine (decodeWhile_read (R := fun k c => k = makeKey store.owner c.identityId ∧ c.label.bytes.length ≤ 64) hitems
    (fun _ => trivial) fun k v hv _ hpre => ?_).1.mono (fun _ he => he) fun l hl => ?_
  · obtain ⟨owner, contact, hk, rfl, hlabel⟩ := hv
    have howner : store.owner = owner := by
      rw [← ownerPrefix_isPrefix_iff (i := contact.identityId), ← hk]
      exact List.isPrefixOf_iff_prefix.mp hpre
    exact ⟨contact, by rw [Postcard.fromBytes_enc]; rfl, by rw [howner]; exact hk, hlabel⟩
  · refine ⟨hl.sorted.imp fun {a b} hab => ?_, fun c hc => ?_⟩
    · obtain ⟨k, k', hk, hk', hlt⟩ := hab
      rw [hk.1, hk'.1] at hlt
      exact makeKey_lt_iff.mp hlt
    · obtain ⟨k, hk⟩ := hl.mem c hc
      exact hk.2

end ContactStore

/-! ## Sectors -/

namespace ZeroDb

theorem safe_putSector (sector : Sector) :
    (putSector sector).Safe handleAt (Contents Stored) (Returns StorageError.Expected fun _ => True) :=
  safe_putRaw ⟨sector, rfl⟩

/-- The sector of a key has the key's id; it is of the key's scope too when
the names asked for fit. -/
theorem safe_getSector (i m : Str) (id : SectorId) :
    (getSector i m id).Safe handleAt (Contents Stored) (Returns StorageError.Expected fun o =>
      ∀ s, o = some s → s.id = id ∧ (Short i → Short m → s.identityId = i ∧ s.machineId = m)) := by
  refine safe_getRaw.andThen fun b hb => ?_
  cases b with
  | none => exact .ret fun s hs => by cases hs
  | some v =>
    obtain ⟨sector, hpair⟩ := hb v rfl
    obtain ⟨hk, rfl⟩ := Prod.mk.inj hpair
    change Safe _ _ _ (Prog.bind (lift (decodeSector (encodeSector sector))) _)
    rw [SectorMap.decodeSector_encodeSector]
    refine .ret fun s hs => ?_
    cases hs
    constructor
    · have hid := (List.append_inj' hk (id.bytes.property.trans sector.id.bytes.property.symm)).2
      cases hs : sector.id with
      | mk b =>
        cases id
        rw [hs] at hid
        exact congrArg SectorId.mk (Subtype.ext hid.symm)
    · intro hi hm
      obtain ⟨hi, hm, -⟩ := makeSectorKey_inj hi hm hk.symm
      exact ⟨hi, hm⟩

theorem safe_deleteSector (i m : Str) (id : SectorId) :
    (deleteSector i m id).Safe handleAt (Contents Stored) (Returns StorageError.Expected fun _ => True) := safe_deleteRaw

/-- What `iter_chain` returns: ascending keys, and of the scopes whose names
fit only the one asked for. -/
structure ChainOf (i m : Str) (l : List Sector) : Prop where
  ascending : l.Pairwise fun a b => a.pair.1 < b.pair.1
  scope : ∀ s ∈ l, Short s.identityId → Short s.machineId → s.identityId = i ∧ s.machineId = m

theorem iterChainLoop_eq (pre : Bytes) (items : List (Except RocksError (Bytes × Bytes))) :
    iterChainLoop pre items = decodeWhile pre.isPrefixOf decodeSector .rocks items := by
  induction items with
  | nil => rfl
  | cons x items ih =>
    cases x with
    | error e => rfl
    | ok e =>
      simp only [iterChainLoop, decodeWhile, ih]
      cases pre.isPrefixOf e.1 with
      | false => rfl
      | true => cases decodeSector e.2 <;> rfl

theorem safe_iterChain (i m : Str) :
    (iterChain i m).Safe handleAt (Contents Stored) (Returns StorageError.Expected (ChainOf i m)) := by
  refine safe_iteratorCf.andThen fun items hitems => .ret ?_
  rw [iterChainLoop_eq]
  refine (decodeWhile_read (R := fun k s => k = s.pair.1 ∧ makeScopePrefix i m <+: k) hitems
    (fun _ => trivial) fun k v hv _ hpre => ?_).1.mono (fun _ he => he) fun l hl => ?_
  · obtain ⟨sector, hpair⟩ := hv
    obtain ⟨hk, rfl⟩ := Prod.mk.inj hpair
    exact ⟨sector, SectorMap.decodeSector_encodeSector sector, hk, List.isPrefixOf_iff_prefix.mp hpre⟩
  · refine ⟨hl.sorted.imp fun {a b} hab => ?_, fun s hs hi hm => ?_⟩
    · obtain ⟨k, k', hk, hk', hlt⟩ := hab
      rw [hk.1, hk'.1] at hlt
      exact hlt
    · obtain ⟨k, rfl, hpre⟩ := hl.mem s hs
      obtain ⟨hi, hm⟩ := (makeScopePrefix_isPrefix_iff hi hm).mp hpre
      exact ⟨hi.symm, hm.symm⟩

end ZeroDb

/-! ## Outbox -/

namespace Outbox

theorem safe_count : count.Safe handleAt (Contents Stored) (Returns StorageError.Expected fun _ => True) := by
  refine safe_iteratorCf.andThen fun items hitems => .ret ?_
  clear hitems
  suffices h : ∀ n, Returns StorageError.Expected (fun _ => True) (countLoop n items) from h 0
  intro n
  induction items generalizing n with
  | nil => trivial
  | cons x items ih =>
    cases x with
    | error e => trivial
    | ok e => exact ih (n + 1)

theorem stored_entry (entry : OutboxEntry) : Stored .outbox entry.sectorId.bytes.val (OutboxEntry.codec.enc entry) :=
  ⟨entry, rfl, rfl⟩

theorem safe_enqueue (outbox : Outbox) (entry : OutboxEntry) : (outbox.enqueue entry).Safe handleAt (Contents Stored)
    (Returns StorageError.Expected fun _ => True) := by
  refine safe_getRaw.andThen fun queued _ => ?_
  split
  · exact .ret trivial
  · refine safe_count.andThen fun n _ => ?_
    split
    · exact .ret trivial
    · exact safe_putRaw (stored_entry entry)

theorem safe_op (op : Outbox.Op) :
    op.prog.Safe handleAt (Contents Stored) (Returns StorageError.Expected fun _ => True) := by
  cases op with
  | enqueue outbox entry => exact safe_enqueue outbox entry
  | markAttempted id nextAttemptMs =>
    refine safe_getRaw.andThen fun raw hraw => ?_
    cases raw with
    | none => exact .ret trivial
    | some v =>
      obtain ⟨entry, hk, rfl⟩ := hraw v rfl
      change Safe _ _ _ (Prog.bind (lift (decodeEntry (OutboxEntry.codec.enc entry))) _)
      rw [decodeEntry_enc]
      -- the entry goes back under its own key
      rw [hk]
      exact safe_putRaw ⟨rescheduled entry nextAttemptMs, rfl, rfl⟩
  | remove id => exact safe_deleteRaw

/-- What `dequeue_due` returns: due entries in the order of their times, each
sector once. -/
structure Due (nowMs : UInt64) (l : List OutboxEntry) : Prop where
  due : ∀ e ∈ l, e.nextAttemptMs ≤ nowMs
  ordered : l.Pairwise fun a b => a.nextAttemptMs ≤ b.nextAttemptMs
  once : (l.map (·.sectorId)).Nodup

theorem scanAllLoop_eq (items : List (Except RocksError (Bytes × Bytes))) :
    scanAllLoop items = decodeWhile (fun _ => true) decodeEntry .rocks items := by
  induction items with
  | nil => rfl
  | cons x items ih =>
    cases x with
    | error e => rfl
    | ok e =>
      simp only [scanAllLoop, decodeWhile, ih, if_true]
      cases decodeEntry e.2 <;> rfl

theorem safe_scanAll : scanAll.Safe handleAt (Contents Stored)
    (Returns StorageError.Expected fun l => l.Pairwise fun a b => a.sectorId < b.sectorId) := by
  refine safe_iteratorCf.andThen fun items hitems => .ret ?_
  rw [scanAllLoop_eq]
  refine (decodeWhile_read (R := fun k (e : OutboxEntry) => k = e.sectorId.bytes.val) hitems
    (fun _ => trivial) fun k v hv _ _ => ?_).1.mono (fun _ he => he) fun l hl => ?_
  · obtain ⟨entry, hk, rfl⟩ := hv
    exact ⟨entry, decodeEntry_enc entry, hk⟩
  · refine hl.sorted.imp fun {a b} hab => ?_
    obtain ⟨k, k', rfl, rfl, hlt⟩ := hab
    exact hlt

theorem safe_dequeueDue (nowMs : UInt64) :
    (dequeueDue nowMs).Safe handleAt (Contents Stored) (Returns StorageError.Expected (Due nowMs)) := by
  refine safe_scanAll.andThen fun all hall => .ret ⟨fun e he => ?_, ?_, ?_⟩
  · exact of_decide_eq_true (List.mem_filter.mp (List.mem_insertionSort _ |>.mp he)).2
  · have hstable := OrdMap.insertionSort_stable (r := fun a b : OutboxEntry => a.nextAttemptMs ≤ b.nextAttemptMs)
      (fun _ _ => UInt64.le_total _ _) (fun _ _ _ => UInt64.le_trans)
      (hall.sublist (List.filter_sublist (p := fun e => decide (e.nextAttemptMs ≤ nowMs))))
    exact hstable.imp fun {a b} hab => hab.1
  · have hnodup : (all.map (·.sectorId)).Nodup := by
      rw [List.Nodup, List.pairwise_map]
      exact hall.imp fun {a b} hab => ne_of_lt hab
    exact ((List.perm_insertionSort _ _).map _).nodup_iff.mpr (hnodup.sublist (List.filter_sublist.map _))

end Outbox

/-! ## Inbox -/

namespace Inbox.InboxService

/-- A scan of an owner's rows is the pairs of entries in the order shown. -/
theorem found_rows {s : InboxService} {pairs : KvPairs} (h : Found Stored .inboxIndex s.pre pairs) :
    ∃ l : List InboxEntry, pairs = l.map s.pair ∧ l.Pairwise Before := by
  obtain ⟨hentry, hsorted⟩ := h
  suffices hl : ∃ l : List InboxEntry, pairs = l.map s.pair by
    obtain ⟨l, rfl⟩ := hl
    rw [List.pairwise_map] at hsorted
    exact ⟨l, rfl, hsorted.imp fun {a b} hab => (encodeKey_lt_iff _ _ _ _ _ _).mp hab⟩
  clear hsorted
  induction pairs with
  | nil => exact ⟨[], rfl⟩
  | cons e pairs ih =>
    obtain ⟨l, rfl⟩ := ih fun k v hkv => hentry k v (List.mem_cons_of_mem _ hkv)
    obtain ⟨k, v⟩ := e
    obtain ⟨⟨s', entry, hpair⟩, hpre⟩ := hentry k v List.mem_cons_self
    have hk : k = (s'.pair entry).1 := congrArg Prod.fst hpair
    have hs : s = s' := pre_isPrefix_iff.mp (hk ▸ hpre)
    subst hs
    exact ⟨entry :: l, by rw [List.map_cons, ← hpair]⟩

theorem safe_scan (s : InboxService) :
    ((prefixScanRaw .inboxIndex (ownerPrefix s.identityId s.machineId)).mapErr InboxError.storage).Safe handleAt
      (Contents Stored) (Returns InboxError.Expected fun pairs =>
        ∃ l : List InboxEntry, pairs = l.map s.pair ∧ l.Pairwise Before) := by
  have hscan : ((prefixScanRaw .inboxIndex s.pre).mapErr InboxError.storage).Safe handleAt (Contents Stored)
      (Returns InboxError.Expected (Found Stored .inboxIndex s.pre)) := safe_prefixScanRaw.mapError fun _ he => he
  exact hscan.mono fun r hr => hr.mono (fun _ he => he) fun pairs hp => found_rows hp

theorem safe_putEntry (s : InboxService) (entry : InboxEntry) :
    (s.putEntry entry).Safe handleAt (Contents Stored) (Returns InboxError.Expected fun _ => True) :=
  (safe_putRaw ⟨s, entry, rfl⟩).mapError fun _ he => he

theorem safe_findRawEntry (s : InboxService) (c : ConversationId) :
    (s.findRawEntry c).Safe handleAt (Contents Stored) (Returns InboxError.Expected fun _ => True) := by
  refine s.safe_scan.andThen fun pairs hpairs => ?_
  obtain ⟨l, rfl, -⟩ := hpairs
  rw [findLoop_map]
  exact .ret trivial

theorem safe_unrow (k : Bytes) : ((deleteRaw .inboxIndex k).mapErr InboxError.storage).Safe handleAt (Contents Stored)
    (Returns InboxError.Expected fun _ => True) := safe_deleteRaw.mapError fun _ he => he

theorem safe_upsert (s : InboxService) (entry : InboxEntry) :
    (s.upsert entry).Safe handleAt (Contents Stored) (Returns InboxError.Expected fun _ => True) := by
  refine (s.safe_findRawEntry _).andThen fun found _ => ?_
  cases found with
  | none => exact s.safe_putEntry entry
  | some old => exact (safe_unrow _).andThen fun _ _ => s.safe_putEntry entry

theorem safe_markRead (s : InboxService) (r : ConversationRef) :
    (s.markRead r).Safe handleAt (Contents Stored) (Returns InboxError.Expected fun _ => True) := by
  refine (s.safe_findRawEntry _).andThen fun found _ => ?_
  cases found with
  | none => exact .ret trivial
  | some old =>
    simp only
    split
    · exact (safe_unrow _).andThen fun _ _ => s.safe_putEntry _
    · exact .ret trivial

/-- What `list_inbox` returns: no more than the limit, newest first, each
conversation and time once. -/
structure Shown (limit : Option Nat) (l : List InboxEntry) : Prop where
  limit : l.length ≤ limit.getD 50
  ordered : l.Pairwise Before

theorem safe_listInbox (s : InboxService) (limit : Option Nat) :
    (s.listInbox limit).Safe handleAt (Contents Stored) (Returns InboxError.Expected (Shown limit)) := by
  refine s.safe_scan.andThen fun pairs hpairs => ?_
  obtain ⟨l, rfl, hl⟩ := hpairs
  rw [listLoop_map]
  exact .ret ⟨List.length_take_le _ _, hl.sublist (List.take_sublist _ _)⟩

theorem safe_stats (s : InboxService) : s.stats.Safe handleAt (Contents Stored) (Returns InboxError.Expected fun st =>
    ∃ l : List InboxEntry, l.Pairwise Before ∧ st = ⟨UInt64.ofNat (unreadSum l), l.length⟩) := by
  refine s.safe_scan.andThen fun pairs hpairs => ?_
  obtain ⟨l, rfl, hl⟩ := hpairs
  rw [statsLoop_map, UInt64.zero_add, Nat.zero_add]
  exact .ret ⟨l, hl, rfl⟩

theorem safe_unreadTotal (s : InboxService) : s.unreadTotal.Safe handleAt (Contents Stored)
    (Returns InboxError.Expected fun total => ∃ l : List InboxEntry, l.Pairwise Before ∧ total = UInt64.ofNat (unreadSum l)) := by
  refine s.safe_scan.andThen fun pairs hpairs => ?_
  obtain ⟨l, rfl, hl⟩ := hpairs
  rw [unreadLoop_map, UInt64.zero_add]
  exact .ret ⟨l, hl, rfl⟩

end Inbox.InboxService

end ZeroSdk
