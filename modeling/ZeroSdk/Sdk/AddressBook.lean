/-
The address book over whole histories of the SDK. Contacts refine a map of
owners and ids (`Book`): `add_contact` writes it when the label is short
enough, `remove_contact` erases it, and no other call of any service changes
it (`book_stores`). So `get_contact` returns what the map holds,
`list_contacts` the contacts of its owner by ascending id, and
`open_conversation` opens a conversation with exactly those peers the map
holds for its owner (`open_conversation_iff`).
-/
import ZeroSdk.Sdk.Isolation
import ZeroSdk.Sdk.Soundness

namespace ZeroSdk.Sdk
open Prog

/-- The contact of each owner and id. -/
abbrev Book := IdentityId → IdentityId → Option Contact

def Book.set (book : Book) (owner id : IdentityId) (o : Option Contact) : Book :=
  fun owner' id' => if owner' = owner ∧ id' = id then o else book owner' id'

/-- What a call makes of the address book. -/
def Book.step (book : Book) : Call → Book
  | .contact (.addContact store contact) =>
    if contact.label.bytes.length > 64 then book else book.set store.owner contact.identityId (some contact)
  | .contact (.removeContact store id) => book.set store.owner id none
  | _ => book

/-- The address book after a history of calls. -/
def bookOf (calls : List Call) : Book := calls.foldl Book.step fun _ _ => none

/-- The store after a history of calls on a new store. -/
def runAll (blake3 : Bytes → Arr 32) (calls : List Call) : ZeroDb :=
  calls.foldl (fun db c => (db.run (c.prog blake3)).2) ZeroDb.empty

/-- The store's contacts are those of the book, each under its owner's key. -/
structure Book.Stores (db : ZeroDb) (book : Book) : Prop where
  content : ∀ owner id, db.get .contacts (ContactStore.makeKey owner id) = (book owner id).map Contact.codec.enc
  own : ∀ owner id contact, book owner id = some contact → contact.identityId = id

/-! ## One call -/

section Step
variable {blake3 : Bytes → Arr 32} {db : ZeroDb} {book : Book}

theorem dm_keeps_contacts (c : DmCall) (db : ZeroDb) : (db.run (c.prog blake3)).2.cf .contacts = db.cf .contacts := by
  have hkept : Dm.KeptByWrites fun db' => db'.cf .contacts = db.cf .contacts :=
    ⟨fun db' conv h => (db'.cf_put_other _ _ (by decide)).trans h, fun db' m h => (db'.cf_put_other _ _ (by decide)).trans h,
      fun db' k v h => (db'.cf_put_other _ _ (by decide)).trans h, fun db' k h => (db'.cf_delete_other _ (by decide)).trans h⟩
  by_cases htouch : Cf.contacts ∈ c.touches
  · cases c with
    | openConversation s peer =>
      have hkeep := (Dm.keeps_openConversation hkept.conversation blake3 s peer).mapErr SdkError.dm (db, []) rfl
      rw [run_handleFaulty_nil] at hkeep
      exact hkeep
    | processInboundDm r bytes nowMs receiptMs sectorId enqueuedMs =>
      have hkeep := (hkept.processInboundDm blake3 r bytes nowMs receiptMs sectorId enqueuedMs).mapErr SdkError.dm (db, []) rfl
      rw [run_handleFaulty_nil] at hkeep
      exact hkeep
    | _ => simp [DmCall.touches] at htouch
  · exact (c.within blake3).part_run placed_handleAt none htouch db

/-- Only direct-message calls read the address book, and none but its own
writes it. -/
theorem keeps_contacts (c : Call) (hc : ∀ c', c ≠ .contact c') (db : ZeroDb) :
    (db.run (c.prog blake3)).2.cf .contacts = db.cf .contacts := by
  cases c with
  | contact c => exact absurd rfl (hc c)
  | dm c => exact dm_keeps_contacts c db
  | sector c => exact c.within.part_run placed_handleAt none (by simp) db
  | outbox c => exact c.within.part_run placed_handleAt none (by simp) db
  | group c => exact c.within.part_run placed_handleAt none (by simp) db
  | inbox c => exact c.within.part_run placed_handleAt none (by simp) db

theorem Book.Stores.of_cf_eq (h : Book.Stores db book) {db' : ZeroDb} (hcf : db'.cf .contacts = db.cf .contacts) :
    Book.Stores db' book := by
  refine ⟨fun owner id => ?_, h.own⟩
  rw [ZeroDb.get, hcf]
  exact h.content owner id

theorem Book.Stores.put (h : Book.Stores db book) (owner : IdentityId) (contact : Contact) :
    Book.Stores (db.put .contacts (ContactStore.makeKey owner contact.identityId) (Contact.codec.enc contact))
      (book.set owner contact.identityId (some contact)) := by
  refine ⟨fun owner' id' => ?_, fun owner' id' contact' hc => ?_⟩
  · rw [ZeroDb.get_put, Book.set]
    by_cases heq : owner' = owner ∧ id' = contact.identityId
    · obtain ⟨rfl, rfl⟩ := heq
      rw [if_pos ⟨rfl, rfl⟩, if_pos ⟨rfl, rfl⟩]
      rfl
    · rw [if_neg heq, if_neg fun hk => heq (ContactStore.makeKey_inj hk.2)]
      exact h.content owner' id'
  · rw [Book.set] at hc
    split at hc
    · next heq =>
      cases hc
      exact heq.2.symm
    · exact h.own owner' id' contact' hc

theorem Book.Stores.delete (h : Book.Stores db book) (owner id : IdentityId) :
    Book.Stores (db.delete .contacts (ContactStore.makeKey owner id)) (book.set owner id none) := by
  refine ⟨fun owner' id' => ?_, fun owner' id' contact' hc => ?_⟩
  · rw [ZeroDb.get_delete, Book.set]
    by_cases heq : owner' = owner ∧ id' = id
    · obtain ⟨rfl, rfl⟩ := heq
      rw [if_pos ⟨rfl, rfl⟩, if_pos ⟨rfl, rfl⟩]
      rfl
    · rw [if_neg heq, if_neg fun hk => heq (ContactStore.makeKey_inj hk.2)]
      exact h.content owner' id'
  · rw [Book.set] at hc
    split at hc
    · cases hc
    · exact h.own owner' id' contact' hc

theorem Book.Stores.step (h : Book.Stores db book) (c : Call) :
    Book.Stores (db.run (c.prog blake3)).2 (book.step c) := by
  cases c with
  | contact c =>
    cases c with
    | addContact store contact =>
      change Book.Stores (db.run ((store.addContact contact).mapErr _)).2
        (if contact.label.bytes.length > 64 then book else book.set store.owner contact.identityId (some contact))
      rw [ZeroDb.run_mapErr, ContactStore.addContact]
      split
      · exact h
      · exact h.put store.owner contact
    | getContact store id => exact h.of_cf_eq (by
        change (db.run ((store.getContact id).mapErr _)).2.cf .contacts = _
        rw [ZeroDb.run_mapErr, ContactStore.run_getContact])
    | removeContact store id => exact h.delete store.owner id
    | listContacts store => exact h
  | dm c => exact h.of_cf_eq (keeps_contacts (.dm c) (fun _ heq => by cases heq) db)
  | sector c => exact h.of_cf_eq (keeps_contacts (.sector c) (fun _ heq => by cases heq) db)
  | outbox c => exact h.of_cf_eq (keeps_contacts (.outbox c) (fun _ heq => by cases heq) db)
  | group c => exact h.of_cf_eq (keeps_contacts (.group c) (fun _ heq => by cases heq) db)
  | inbox c => exact h.of_cf_eq (keeps_contacts (.inbox c) (fun _ heq => by cases heq) db)

end Step

/-! ## Histories -/

theorem book_stores (blake3 : Bytes → Arr 32) (calls : List Call) :
    Contents Stored (runAll blake3 calls) ∧ Book.Stores (runAll blake3 calls) (bookOf calls) := by
  induction calls using List.reverseRecOn with
  | nil => exact ⟨Contents.empty, ⟨fun _ _ => rfl, fun _ _ _ h => by cases h⟩⟩
  | append_singleton calls c ih =>
    rw [runAll, bookOf, List.foldl_append, List.foldl_append]
    exact ⟨((c.safe blake3).run none ih.1).1, ih.2.step c⟩

variable {db : ZeroDb} {book : Book}

theorem Book.Stores.run_getContact (h : Book.Stores db book) (store : ContactStore) (id : IdentityId) :
    db.run (store.getContact id) = (.ok (book store.owner id), db) := by
  rw [ContactStore.run_getContact, h.content]
  cases book store.owner id with
  | none => rfl
  | some contact =>
    simp only [Option.map_some, Postcard.fromBytes_enc]
    rfl

theorem Book.Stores.run_listContacts (h : Book.Stores db book) (hdb : Contents Stored db) (store : ContactStore) :
    ∃ l, db.run store.listContacts = (.ok l, db) ∧ (∀ c, c ∈ l ↔ book store.owner c.identityId = some c) ∧
      l.Pairwise fun a b => a.identityId.bytes < b.identityId.bytes := by
  obtain ⟨l, hrun, hall⟩ := store.run_listContacts hdb
  refine ⟨l, hrun, fun c => ?_, hall.ascending.imp fun {a b} hab => ContactStore.makeKey_lt_iff.mp hab⟩
  rw [hall.mem, and_iff_right trivial, ContactStore.pair, h.content]
  cases book store.owner c.identityId with
  | none => simp
  | some contact => simp [(Postcard.enc_injective Contact.codec).eq_iff]

/-- **Contacts refine a map.** After any history of calls of all services on
a new store, `get_contact` returns the contact last added under its owner and
id, unless it was removed since or its label was refused, and
`list_contacts` returns the contacts of its owner, each once and by ascending
id. -/
theorem contacts_refine_book (blake3 : Bytes → Arr 32) (calls : List Call) (store : ContactStore) :
    (∀ id, (runAll blake3 calls).run (store.getContact id) =
      (.ok (bookOf calls store.owner id), runAll blake3 calls)) ∧
    ∃ l, (runAll blake3 calls).run store.listContacts = (.ok l, runAll blake3 calls) ∧
      (∀ c, c ∈ l ↔ bookOf calls store.owner c.identityId = some c) ∧
      l.Pairwise fun a b => a.identityId.bytes < b.identityId.bytes := by
  obtain ⟨hdb, hbook⟩ := book_stores blake3 calls
  exact ⟨fun id => hbook.run_getContact store id, hbook.run_listContacts hdb store⟩

/-- **Conversations are opened with contacts only.** After any history of
calls of all services on a new store, `open_conversation` returns the
conversation of the two identities when the peer is in the book of its owner,
and otherwise fails with `ContactNotFound` and changes nothing. -/
theorem open_conversation_iff (blake3 : Bytes → Arr 32) (calls : List Call) (s : Dm.DmService) (peer : IdentityId) :
    (bookOf calls s.contacts.owner peer = none →
      (runAll blake3 calls).run (s.openConversation blake3 peer) =
        (.error (.contactNotFound peer), runAll blake3 calls)) ∧
    ∀ contact, bookOf calls s.contacts.owner peer = some contact →
      ∃ conv, ((runAll blake3 calls).run (s.openConversation blake3 peer)).1 = .ok conv ∧
        conv.conversationId = ConversationId.derive blake3 s.identity peer := by
  obtain ⟨hdb, hbook⟩ := book_stores blake3 calls
  have hget := hbook.run_getContact s.contacts peer
  refine ⟨fun hnone => ?_, fun contact hsome => ?_⟩
  · rw [hnone] at hget
    unfold Dm.DmService.openConversation
    rw [ZeroDb.run_bind_ok (a := none) (by rw [ZeroDb.run_mapErr, hget]; rfl)]
    rfl
  · rw [hsome] at hget
    have hsafe := ((s.safe_openConversation blake3 peer).run none hdb).2
    have hin : Dm.hasContact (runAll blake3 calls) s peer = true := by simp only [Dm.hasContact, hget]
    rcases Dm.openConversation_cases blake3 (runAll blake3 calls) s peer with ⟨hout, -⟩ | ⟨-, b, hb, hrun⟩ | ⟨-, -, hrun⟩
    · rw [hin] at hout
      cases hout
    · obtain ⟨conv, hc, rfl⟩ := Dm.stored_record (hdb .chains _ b hb)
      exact ⟨conv, by rw [hrun, Dm.decodeConversation_enc], hc⟩
    · exact ⟨_, by rw [hrun], rfl⟩

end ZeroSdk.Sdk
