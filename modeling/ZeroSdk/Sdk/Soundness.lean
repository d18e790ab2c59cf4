/-
The store stays sound, and what is read from it is what was asked for. Every
call makes a promise of its reply (`Call.Promise`), and fails only in ways
that do not blame a stored value (`Call.MayFail`). The promises hold of every
call from every store the calls can bring about (`Call.safe`), and so of
calls that run at the same time, with RocksDB failing in any of them and a
process that may be killed between any two operations (`store_sound`). And
what a call reads and returns it tells of a store that the run went through
(`Call.Tells`, `Visited`): the inbox of its own identity and no other's, the
whole of it, and so for every read. There is no lock in this: a
read-modify-write of one client may overwrite another's, and the store is
sound all the same.
-/
import ZeroSdk.Sdk.Answers

namespace ZeroSdk.Sdk
open Prog
open ZeroDb (handleAt)

/-! ## What a call promises -/

def ContactCall.Promise : (c : ContactCall) → c.Reply → Prop
  | .addContact _ contact, _ => contact.label.bytes.length ≤ 64
  | .getContact _ id, o => ∀ contact, o = some contact → contact.identityId = id ∧ contact.label.bytes.length ≤ 64
  | .removeContact _ _, _ => True
  | .listContacts _, l => ContactStore.Listed l

def SectorCall.Promise : (c : SectorCall) → c.Reply → Prop
  | .putSector _, _ | .deleteSector _ _ _, _ => True
  | .getSector i m id, o => ∀ s, o = some s → s.id = id ∧ (Short i → Short m → s.identityId = i ∧ s.machineId = m)
  | .iterChain i m, l => ZeroDb.ChainOf i m l

def OutboxCall.Promise : (c : OutboxCall) → c.Reply → Prop
  | .op _, _ | .count, _ => True
  | .dequeueDue nowMs, l => Outbox.Due nowMs l

def DmCall.Promise (blake3 : Bytes → Arr 32) : (c : DmCall) → c.Reply → Prop
  | .openConversation s peer, conv => conv.conversationId = ConversationId.derive blake3 s.identity peer
  | .resumeConversation c, conv => conv.conversationId = c
  | .history c before limit, o => Dm.DmService.PageOrPanic c before limit (max limit 1) o
  | .paginateMessages c before limit, o => Dm.DmService.PageOrPanic c before limit limit o
  | .getMessage c id, o => ∀ m, o = some m → m.conversationId = c ∧ m.id = id
  | .markRead s c id _ nowMs, r | .markReadAndEmit s c id _ _ nowMs _ _, r =>
    r = ⟨id, c, s.identity, s.machineId, .read, nowMs⟩
  | .sendText _ _ _ _ id _, r => r = id
  | .enqueueReceipt _ _ sectorId _, r => r = sectorId
  | .processInboundDm _ bytes _ _ _ _, r => ∃ p, Dm.decodeDm bytes = .ok p ∧ r = p.messageId
  | .saveConversation _, _ | .storeMessage _, _ | .updateStatus _ _ _ _, _ | .processReceipt _ _, _
  | .acknowledgeSent _ _ _, _ => True

def GroupCall.Promise : (c : GroupCall) → c.Reply → Prop
  | .createGroup label _ g _, r => r = g ∧ label.bytes.length ≤ 64
  | .getManifest g, man => man.groupId = g
  | .loadManifest g, o => ∀ man, o = some man → man.groupId = g
  | .sendMessage _ _ _ _ id _, r => r = id
  | .getMessage g id, o => ∀ m, o = some m → m.groupId = g ∧ m.id = id
  | .listMessages g before limit, l => Group.PageOf g before limit l
  | .markDelivered g id who machine now, o => ∀ r, o = some r → r = ⟨id, g, who, machine, .delivered, now⟩
  | .markRead g id who machine now, o => ∀ r, o = some r → r = ⟨id, g, who, machine, .read, now⟩
  | .persistManifest _, _ | .membership _ _, _ | .receiveMessage _, _ | .processReceipt _, _ => True

def InboxCall.Promise : (c : InboxCall) → c.Reply → Prop
  | .upsert _ _, _ | .markRead _ _, _ => True
  | .listInbox _ limit, l => Inbox.InboxService.Shown limit l
  | .unreadTotal _, total => ∃ l : List Inbox.InboxEntry, l.Pairwise Inbox.Before ∧ total = UInt64.ofNat (Inbox.unreadSum l)
  | .stats _, st => ∃ l : List Inbox.InboxEntry, l.Pairwise Inbox.Before ∧ st = ⟨UInt64.ofNat (Inbox.unreadSum l), l.length⟩

/-- What holds of a reply, whenever the call is made. -/
def Call.Promise (blake3 : Bytes → Arr 32) : (c : Call) → c.Reply → Prop
  | .contact c => c.Promise
  | .sector c => c.Promise
  | .outbox c => c.Promise
  | .dm c => c.Promise blake3
  | .group c => c.Promise
  | .inbox c => c.Promise

/-! ## How a call may fail -/

def SdkError.Expected : SdkError → Prop
  | .storage e => e.Expected
  | .dm e => e.Expected
  | .group e => e.Expected
  | .inbox e => e.Expected
  | .contact e => e.Expected
  | .contactList e => e.Expected

/-- No stored value is to blame for the error. The bytes of a sector that
arrives may be: they are the caller's. -/
def Call.MayFail : Call → SdkError → Prop
  | .dm (.processInboundDm _ bytes _ _ _ _), e => e.Expected ∨ ∃ e', Dm.decodeDm bytes = .error e' ∧ e = .dm e'
  | _, e => e.Expected

/-- A call that answers as it should, in a run whose stores are the `V`s: it
keeps its promise, and tells what one of these stores holds. -/
def Call.Answers (blake3 : Bytes → Arr 32) (V : ZeroDb → Prop) (c : Call) (r : Except SdkError c.Reply) : Prop :=
  Returns c.MayFail (c.Promise blake3) r ∧ ∀ a, r = .ok a → ∃ db, V db ∧ c.Tells db a

/-! ## Every call, from every sound store -/

theorem ContactCall.safe (c : ContactCall) :
    c.prog.Safe handleAt (Contents Stored) (Returns SdkError.Expected c.Promise) := by
  cases c with
  | addContact store contact => exact (store.safe_addContact contact).mapError fun _ he => he
  | getContact store id => exact (store.safe_getContact id).mapError fun _ he => he
  | removeContact store id => exact (store.safe_removeContact id).mapError fun _ he => he
  | listContacts store => exact store.safe_listContacts.mapError fun _ he => he

theorem SectorCall.safe (c : SectorCall) :
    c.prog.Safe handleAt (Contents Stored) (Returns SdkError.Expected c.Promise) := by
  cases c with
  | putSector sector => exact (ZeroDb.safe_putSector sector).mapError fun _ he => he
  | getSector i m id => exact (ZeroDb.safe_getSector i m id).mapError fun _ he => he
  | deleteSector i m id => exact (ZeroDb.safe_deleteSector i m id).mapError fun _ he => he
  | iterChain i m => exact (ZeroDb.safe_iterChain i m).mapError fun _ he => he

theorem OutboxCall.safe (c : OutboxCall) :
    c.prog.Safe handleAt (Contents Stored) (Returns SdkError.Expected c.Promise) := by
  cases c with
  | op o => exact (Outbox.safe_op o).mapError fun _ he => he
  | count => exact Outbox.safe_count.mapError fun _ he => he
  | dequeueDue nowMs => exact (Outbox.safe_dequeueDue nowMs).mapError fun _ he => he

theorem DmCall.safe (blake3 : Bytes → Arr 32) (c : DmCall) :
    (c.prog blake3).Safe handleAt (Contents Stored) (Returns (Call.MayFail (.dm c)) (c.Promise blake3)) := by
  cases c with
  | openConversation s peer => exact (s.safe_openConversation blake3 peer).mapError fun _ he => he
  | resumeConversation c => exact (Dm.DmService.safe_resumeConversation c).mapError fun _ he => he
  | saveConversation conv => exact (Dm.DmService.safe_saveConversation conv).mapError fun _ he => he
  | storeMessage msg => exact (Dm.DmService.safe_storeMessage msg).mapError fun _ he => he
  | history c before limit => exact (Dm.DmService.safe_history c before limit).mapError fun _ he => he
  | paginateMessages c before limit => exact (Dm.safe_paginateMessages c before limit).mapError fun _ he => he
  | getMessage c id => exact (Dm.DmService.safe_getMessage c id).mapError fun _ he => he
  | updateStatus c id new nowMs => exact (Dm.DmService.safe_updateStatus c id new nowMs).mapError fun _ he => he
  | processReceipt r nowMs => exact (Dm.DmService.safe_updateStatus _ _ _ nowMs).mapError fun _ he => he
  | markRead s c id updatedMs nowMs => exact (s.safe_markRead c id updatedMs nowMs).mapError fun _ he => he
  | markReadAndEmit s c id outbox updatedMs nowMs sectorId enqueuedMs =>
    exact (s.safe_markReadAndEmit c id outbox updatedMs nowMs sectorId enqueuedMs).mapError fun _ he => he
  | sendText s c text nowMs id sectorId => exact (s.safe_sendText c text nowMs id sectorId).mapError fun _ he => he
  | acknowledgeSent c id nowMs => exact (Dm.DmService.safe_updateStatus c id .sent nowMs).mapError fun _ he => he
  | enqueueReceipt outbox r sectorId nowMs => exact (Dm.safe_enqueueReceipt outbox r sectorId nowMs).mapError fun _ he => he
  | processInboundDm r bytes nowMs receiptMs sectorId enqueuedMs =>
    refine (r.safe_processInboundDm blake3 bytes nowMs receiptMs sectorId enqueuedMs).mapError fun e he => ?_
    exact he.imp (fun h => h) fun h => ⟨e, h, rfl⟩

theorem GroupCall.safe (c : GroupCall) :
    c.prog.Safe handleAt (Contents Stored) (Returns SdkError.Expected c.Promise) := by
  cases c with
  | createGroup label founders g ts => exact (Group.safe_createGroup label founders g ts).mapError fun _ he => he
  | getManifest g => exact (Group.safe_getManifest g).mapError fun _ he => he
  | persistManifest man => exact (Group.safe_putManifest man).mapError fun _ he => he
  | loadManifest g => exact (Group.safe_loadManifest g).mapError fun _ he => he
  | membership g call => exact (Group.safe_membership g call).mapError fun _ he => he
  | sendMessage g sender machine text id ts =>
    exact (Group.safe_sendMessage g sender machine text id ts).mapError fun _ he => he
  | receiveMessage msg => exact (Group.safe_receiveMessage msg).mapError fun _ he => he
  | getMessage g id => exact (Group.safe_getMessage g id).mapError fun _ he => he
  | listMessages g before limit => exact (Group.safe_listMessages g before limit).mapError fun _ he => he
  | processReceipt r => exact (Group.safe_processReceipt r).mapError fun _ he => he
  | markDelivered g id who machine now =>
    exact (Group.safe_markStatus g id who machine .delivered now).mapError fun _ he => he
  | markRead g id who machine now => exact (Group.safe_markStatus g id who machine .read now).mapError fun _ he => he

theorem InboxCall.safe (c : InboxCall) :
    c.prog.Safe handleAt (Contents Stored) (Returns SdkError.Expected c.Promise) := by
  cases c with
  | upsert s entry => exact (s.safe_upsert entry).mapError fun _ he => he
  | markRead s r => exact (s.safe_markRead r).mapError fun _ he => he
  | listInbox s limit => exact (s.safe_listInbox limit).mapError fun _ he => he
  | unreadTotal s => exact s.safe_unreadTotal.mapError fun _ he => he
  | stats s => exact s.safe_stats.mapError fun _ he => he

/-- Every call, from every store the calls bring about and in whatever way
RocksDB fails, leaves such a store at each point and answers as promised. -/
theorem Call.safe (blake3 : Bytes → Arr 32) (c : Call) :
    (c.prog blake3).Safe handleAt (Contents Stored) (Returns c.MayFail (c.Promise blake3)) := by
  cases c with
  | contact c => exact c.safe
  | sector c => exact c.safe
  | outbox c => exact c.safe
  | dm c => exact c.safe blake3
  | group c => exact c.safe
  | inbox c => exact c.safe

theorem Call.hears (blake3 : Bytes → Arr 32) {V : ZeroDb → Prop} (hV : ∀ db, V db → Contents Stored db) {db : ZeroDb}
    (hdb : V db) (c : Call) : (c.prog blake3).Hears handleAt V (c.Answers blake3 V) :=
  ((c.safe blake3).hears hV).and (c.heard blake3 hV hdb)

/-! ## Clients -/

variable {ι ε α : Type} [DecidableEq ι]

/-- The client only makes calls that satisfy `A`. -/
def Client.Makes (A : Call → Prop) (p : Client ε α) : Prop := p.Within (fun c : Call => c) {c | A c}

theorem Client.makes_any (p : Client ε α) : p.Makes fun _ => True := by
  induction p with
  | ret r => exact .ret _
  | op c k ih => exact ⟨trivial, ih⟩

theorem Client.makes_calls {A : Call → Prop} {l : List Call} (h : ∀ c ∈ l, A c) : (Client.calls l : Client ε Unit).Makes A := by
  induction l with
  | nil => exact .ret _
  | cons c l ih => exact ⟨h c List.mem_cons_self, fun _ => ih fun c' hc' => h c' (List.mem_cons_of_mem _ hc')⟩

/-- What each call keeps is kept by clients that make such calls. -/
theorem kept_run (blake3 : Bytes → Arr 32) {I : ZeroDb → Prop} {db : ZeroDb} (hdb : I db) {A : Call → Prop}
    (hcalls : ∀ c, A c → (c.prog blake3).Safe handleAt I fun _ => True) {clients : ι → Client ε α}
    (hclients : ∀ i, (clients i).Makes A) (sched : List (ι × Option Fault)) :
    I (runClients blake3 db clients sched).state := by
  have hsafe : ∀ i, ((clients i).prog blake3).Safe handleAt I fun _ => True := fun i =>
    Within.expand_safe (Within.mono (hclients i) fun c hc => (hcalls c hc).attempt fun _ _ => trivial)
  exact (Interleave.Pool.safe_run (Q := fun _ _ => True) hdb hsafe sched).1

/-- The stores a run goes through. -/
def Visited (blake3 : Bytes → Arr 32) (db : ZeroDb) (clients : ι → Client ε α) (sched : List (ι × Option Fault))
    (db' : ZeroDb) : Prop := ∃ pre, pre <+: sched ∧ (runClients blake3 db clients pre).state = db'

/-- **The store stays sound under concurrency, failures and crashes.** Start
any clients on a sound store. At every point of every schedule, each entry of
each column family is the encoding of a value of its own kind under the key
of that value. And each client that has returned returned what it returns of
calls that keep their promises and tell what a store of the run held: no read
fails on what is stored, and each returns what was asked for, all of it and
nothing else. -/
theorem store_sound (blake3 : Bytes → Arr 32) {db : ZeroDb} (hdb : Contents Stored db) {clients : ι → Client ε α}
    (sched : List (ι × Option Fault)) {Q : ι → Except ε α → Prop}
    (hclients : ∀ i, (clients i).Relies (Call.Answers blake3 (Visited blake3 db clients sched)) (Q i)) :
    Contents Stored (runClients blake3 db clients sched).state ∧
      ∀ i r, (runClients blake3 db clients sched).threads i = .ret r → Q i r := by
  have hkept : ∀ pre, Contents Stored (runClients blake3 db clients pre).state := fun pre =>
    kept_run blake3 hdb (fun c _ => (c.safe blake3).mono fun _ _ => trivial) (fun i => Client.makes_any (clients i)) pre
  have hV : ∀ db', Visited blake3 db clients sched db' → Contents Stored db' := by
    rintro db' ⟨pre, -, rfl⟩
    exact hkept pre
  have hstart : Visited blake3 db clients sched db := ⟨[], List.nil_prefix, rfl⟩
  have hhears : ∀ i, ((clients i).prog blake3).Hears handleAt (Visited blake3 db clients sched) (Q i) := by
    intro i
    refine Hears.expand (fun c => ?_) (hclients i)
    exact (c.hears blake3 hV hstart).attempt fun r hr => ⟨r, rfl, hr⟩
  refine ⟨hkept sched, fun i r hr => ?_⟩
  have hresult := Interleave.Pool.hears_run (p := ⟨fun i => (clients i).prog blake3, db⟩)
    (fun pre hpre => (⟨pre, hpre, rfl⟩ : Visited blake3 db clients sched _)) hhears i
  change ((runClients blake3 db clients sched).threads i).Hears _ _ _ at hresult
  rw [hr] at hresult
  exact hresult

/-- A client that adds a contact, and one that looks it up and says whether
what it read is the contact asked for. -/
def book : ContactStore := ⟨⟨Arr.fill 16 1⟩⟩

def peer : Contact := ⟨⟨Arr.fill 16 2⟩, Str.empty, Vec.empty, none, 7⟩

def isPeer : Except SdkError (Option Contact) → Bool
  | .ok (some contact) => contact = peer
  | _ => true

def adds : Client Unit Bool := .op (.contact (.addContact book peer)) fun _ => .ret (.ok true)

def looksUp : Client Unit Bool := .op (.contact (.getContact book peer.identityId)) fun r => .ret (.ok (isPeer r))

/-- RocksDB fails at the first look, between two turns of the other client. -/
theorem store_sound_lookup :
    let blake3 : Bytes → Arr 32 := fun _ => Arr.fill 32 9
    let clients : Fin 3 → Client Unit Bool := fun i => if i = 0 then adds else looksUp
    let sched := [(1, some (⟨⟨"IO error"⟩, 0⟩ : Fault)), (0, none), (2, none)]
    (runClients blake3 ZeroDb.empty clients sched).threads 2 = .ret (.ok true) ∧
      Contents Stored (runClients blake3 ZeroDb.empty clients sched).state ∧
      ∀ i r, (runClients blake3 ZeroDb.empty clients sched).threads i = .ret r → r = .ok true := by
  intro blake3 clients sched
  refine ⟨rfl, store_sound blake3 Contents.empty sched fun i => ?_⟩
  let V := Visited blake3 ZeroDb.empty clients sched
  have hadds : Relies (Call.Answers blake3 V) (fun r => r = .ok true) adds := fun _ _ => rfl
  let key := ContactStore.makeKey book.owner peer.identityId
  -- at every point of the run the contact is missing or the one added
  have hheld : ∀ db, V db → db.get .contacts key = none ∨ db.get .contacts key = some (Contact.codec.enc peer) := by
    rintro db ⟨pre, hpre, rfl⟩
    have hmem : pre ∈ sched.inits := (List.mem_inits pre sched).mpr hpre
    simp only [sched, List.inits, List.map_cons, List.map_nil, List.mem_cons, List.not_mem_nil, or_false] at hmem
    rcases hmem with rfl | rfl | rfl | rfl <;> decide +kernel
  have hlooksUp : Relies (Call.Answers blake3 V) (fun r => r = .ok true) looksUp := by
    intro r hr
    rcases r with e | _ | contact
    · rfl
    · rfl
    · obtain ⟨db, hdb, hget⟩ := hr.2 _ rfl
      have hheldContact : some (Contact.codec.enc contact) = db.get .contacts key := hget
      have heq : contact = peer := by
        rcases hheld db hdb with hnone | hpeer
        · rw [hnone] at hheldContact
          cases hheldContact
        · rw [hpeer] at hheldContact
          exact Postcard.enc_injective _ (Option.some.inj hheldContact)
      change (Except.ok (decide (contact = peer)) : Except Unit Bool) = .ok true
      rw [decide_eq_true heq]
  change Relies (Call.Answers blake3 V) (fun r => r = .ok true) (if i = 0 then adds else looksUp)
  split
  · exact hadds
  · exact hlooksUp

end ZeroSdk.Sdk
