/-
The services share one store and do not notice each other. Each call keeps
to the column families `Call.touches` names (`Call.within`), so two groups
of clients with column families of their own are independent in the strong
sense of `services_independent`: under every interleaving, every pattern of
RocksDB failures and wherever the process is killed, what the one group is
answered and what it leaves in its column families is a function of its own
calls, its own turns and its own column families alone.
-/
import ZeroSdk.Sdk.Calls

namespace ZeroSdk
open Prog
open ZeroDb (handleAt)

/-! ## What each service reaches -/

section Within
variable {A : Set Cf}

theorem ContactStore.within_getContact (h : .contacts ∈ A) (store : ContactStore) (id : IdentityId) :
    (store.getContact id).Within StoreOp.cf A := by
  refine (within_getRaw h _).attempt.bind fun r => ?_
  split
  · exact (Within.lift _).bind fun _ => .pure _
  · exact .pure _
  · exact .fail _

theorem Outbox.within_enqueue (h : .outbox ∈ A) (outbox : Outbox) (entry : OutboxEntry) :
    (outbox.enqueue entry).Within StoreOp.cf A := by
  refine (within_getRaw h _).bind fun queued => ?_
  split
  · exact .pure _
  · refine ((within_iteratorCf h _).bind fun _ => .lift _).bind fun n => ?_
    split
    · exact .fail _
    · exact within_putRaw h _ _

theorem Outbox.within_op (h : .outbox ∈ A) (op : Outbox.Op) : op.prog.Within StoreOp.cf A := by
  cases op with
  | enqueue outbox entry => exact Outbox.within_enqueue h outbox entry
  | markAttempted id nextAttemptMs =>
    refine (within_getRaw h _).bind fun raw => (Within.okOr _ _).bind fun raw => (Within.lift _).bind fun entry => ?_
    exact within_putRaw h _ _
  | remove id => exact within_deleteRaw h _

namespace Dm

theorem within_enqueueReceipt (h : .outbox ∈ A) (outbox : Outbox) (receipt : ReceiptPayload) (sectorId : SectorId)
    (nowMs : UInt64) : (enqueueReceipt outbox receipt sectorId nowMs).Within StoreOp.cf A :=
  ((Outbox.within_enqueue h outbox _).mapErr _).bind fun _ => .pure _

namespace DmService

theorem within_storeMessage (h : .chains ∈ A) (msg : Message) : (storeMessage msg).Within StoreOp.cf A :=
  (within_putRaw h _ _).mapErr _

theorem within_saveConversation (h : .chains ∈ A) (conv : Conversation) :
    (saveConversation conv).Within StoreOp.cf A := (within_putRaw h _ _).mapErr _

theorem within_resumeConversation (h : .chains ∈ A) (c : ConversationId) :
    (resumeConversation c).Within StoreOp.cf A :=
  ((within_getRaw h _).mapErr _).bind fun _ => (Within.okOr _ _).bind fun _ => .lift _

theorem within_openConversation (hcontacts : .contacts ∈ A) (hchains : .chains ∈ A) (blake3 : Bytes → Arr 32)
    (s : DmService) (peer : IdentityId) : (s.openConversation blake3 peer).Within StoreOp.cf A := by
  refine ((ContactStore.within_getContact hcontacts _ _).mapErr _).bind fun contact => ?_
  split
  · exact .fail _
  · refine ((within_getRaw hchains _).mapErr _).bind fun bytes => ?_
    split
    · exact .lift _
    · exact ((within_putRaw hchains _ _).mapErr _).bind fun _ => .pure _

theorem within_getMessage (h : .chains ∈ A) (c : ConversationId) (id : MessageId) :
    (getMessage c id).Within StoreOp.cf A := by
  refine (within_getCf h _).bind fun r => ?_
  split
  · exact (Within.lift _).bind fun _ => .pure _
  · exact .pure _
  · exact .fail _

theorem within_history (h : .chains ∈ A) (c : ConversationId) (before : Option MessageId) (limit : Nat) :
    (history c before limit).Within StoreOp.cf A := by
  refine (within_iteratorCf h _).bind fun _ => ?_
  split
  · exact (Within.lift _).bind fun _ => .pure _
  · exact .pure _

theorem within_updateStatus (h : .chains ∈ A) (c : ConversationId) (id : MessageId) (new : MessageStatus)
    (nowMs : UInt64) : (updateStatus c id new nowMs).Within StoreOp.cf A := by
  refine (within_getMessage h c id).bind fun msg => (Within.okOr _ _).bind fun msg => ?_
  split
  · exact .fail _
  · exact within_storeMessage h _

theorem within_markRead (h : .chains ∈ A) (s : DmService) (c : ConversationId) (id : MessageId)
    (updatedMs nowMs : UInt64) : (s.markRead c id updatedMs nowMs).Within StoreOp.cf A :=
  (within_updateStatus h c id .read updatedMs).bind fun _ => .pure _

end DmService

theorem DmReceiver.within_processInboundDm (hcontacts : .contacts ∈ A) (hchains : .chains ∈ A) (houtbox : .outbox ∈ A)
    (blake3 : Bytes → Arr 32) (r : DmReceiver) (bytes : Bytes) (nowMs receiptMs : UInt64) (sectorId : SectorId)
    (enqueuedMs : UInt64) :
    (r.processInboundDm blake3 bytes nowMs receiptMs sectorId enqueuedMs).Within StoreOp.cf A := by
  refine (Within.lift _).bind fun payload => ?_
  refine (DmService.within_openConversation hcontacts hchains blake3 r.service _).attempt.bind fun opened => ?_
  split
  · exact .fail _
  · refine (DmService.within_storeMessage hchains _).bind fun _ => ?_
    exact (within_enqueueReceipt houtbox _ _ _ _).bind fun _ => .pure _

end Dm

namespace Group

theorem within_getManifest (h : .groups ∈ A) (g : GroupId) : (getManifest g).Within StoreOp.cf A :=
  ((within_getRaw h _).mapErr _).bind fun _ => (Within.okOr _ _).bind fun _ => .lift _

theorem within_updateManifest (h : .groups ∈ A) (g : GroupId)
    (decision : GroupManifest → Except GroupError (Option GroupManifest)) :
    (updateManifest g decision).Within StoreOp.cf A := by
  refine (within_getManifest h g).bind fun man => ?_
  split
  · exact .fail _
  · exact .pure _
  · exact (within_putRaw h _ _).mapErr _

theorem within_processReceipt (h : .groups ∈ A) (receipt : GroupReceiptPayload) :
    (processReceipt receipt).Within StoreOp.cf A := by
  refine ((within_getRaw h _).mapErr _).bind fun bytes => ?_
  split
  · exact .pure _
  · refine (Within.lift _).bind fun msg => ?_
    split
    · exact .pure _
    · exact ((within_putRaw h _ _).mapErr _).bind fun _ => .pure _

theorem within_markStatus (h : .groups ∈ A) (g : GroupId) (id : GroupMessageId) (who : IdentityId)
    (machine : MachineId) (status : GroupMessageStatus) (now : UInt64) :
    (markStatus g id who machine status now).Within StoreOp.cf A := by
  refine (within_processReceipt h _).bind fun updated => ?_
  split
  · exact .pure _
  · exact .pure _

end Group

namespace Inbox.InboxService

theorem within_findRawEntry (h : .inboxIndex ∈ A) (s : InboxService) (c : ConversationId) :
    (s.findRawEntry c).Within StoreOp.cf A := ((within_prefixScanRaw h _).mapErr _).bind fun _ => .lift _

theorem within_putEntry (h : .inboxIndex ∈ A) (s : InboxService) (entry : InboxEntry) :
    (s.putEntry entry).Within StoreOp.cf A := (within_putRaw h _ _).mapErr _

theorem within_upsert (h : .inboxIndex ∈ A) (s : InboxService) (entry : InboxEntry) :
    (s.upsert entry).Within StoreOp.cf A := by
  refine (within_findRawEntry h s _).bind fun found => ?_
  split
  · exact ((within_deleteRaw h _).mapErr _).bind fun _ => within_putEntry h s entry
  · exact within_putEntry h s entry

theorem within_markRead (h : .inboxIndex ∈ A) (s : InboxService) (r : ConversationRef) :
    (s.markRead r).Within StoreOp.cf A := by
  refine (within_findRawEntry h s _).bind fun found => ?_
  split
  · split
    · exact ((within_deleteRaw h _).mapErr _).bind fun _ => within_putEntry h s _
    · exact .pure _
  · exact .pure _

end Inbox.InboxService

end Within

/-! ## Every call -/

namespace Sdk

theorem ContactCall.within (c : ContactCall) : c.prog.Within StoreOp.cf {.contacts} := by
  have h : Cf.contacts ∈ ({.contacts} : Set Cf) := rfl
  cases c with
  | addContact store contact =>
    refine Within.mapErr ?_ _
    unfold ContactStore.addContact
    split
    · exact .fail _
    · exact (within_putRaw h _ _).mapErr _
  | getContact store id => exact (ContactStore.within_getContact h store id).mapErr _
  | removeContact store id => exact ((within_deleteRaw h _).mapErr _).mapErr _
  | listContacts store => exact ((within_iteratorCf h _).bind fun _ => .lift _).mapErr _

theorem SectorCall.within (c : SectorCall) : c.prog.Within StoreOp.cf {.sectors} := by
  have h : Cf.sectors ∈ ({.sectors} : Set Cf) := rfl
  cases c with
  | putSector sector => exact (within_putRaw h _ _).mapErr _
  | getSector i m id =>
    refine ((within_getRaw h _).bind fun bytes => ?_).mapErr _
    split
    · exact (Within.lift _).bind fun _ => .pure _
    · exact .pure _
  | deleteSector i m id => exact (within_deleteRaw h _).mapErr _
  | iterChain i m => exact ((within_iteratorCf h _).bind fun _ => .lift _).mapErr _

theorem OutboxCall.within (c : OutboxCall) : c.prog.Within StoreOp.cf {.outbox} := by
  have h : Cf.outbox ∈ ({.outbox} : Set Cf) := rfl
  cases c with
  | op o => exact (Outbox.within_op h o).mapErr _
  | count => exact ((within_iteratorCf h _).bind fun _ => .lift _).mapErr _
  | dequeueDue nowMs =>
    exact (((within_iteratorCf h _).bind fun _ => .lift _).bind fun _ => .pure _).mapErr _

theorem DmCall.within (blake3 : Bytes → Arr 32) (c : DmCall) :
    (c.prog blake3).Within StoreOp.cf {cf | cf ∈ c.touches} := by
  have first : ∀ {a : Cf} {l : List Cf}, a ∈ {cf | cf ∈ a :: l} := List.mem_cons_self
  have second : ∀ {a b : Cf} {l : List Cf}, b ∈ {cf | cf ∈ a :: b :: l} := List.mem_cons_of_mem _ List.mem_cons_self
  have third : ∀ {a b c : Cf} {l : List Cf}, c ∈ {cf | cf ∈ a :: b :: c :: l} := List.mem_cons_of_mem _ second
  cases c with
  | openConversation s peer =>
    exact (Dm.DmService.within_openConversation first second blake3 s peer).mapErr _
  | resumeConversation c => exact (Dm.DmService.within_resumeConversation first c).mapErr _
  | saveConversation conv => exact (Dm.DmService.within_saveConversation first conv).mapErr _
  | storeMessage msg => exact (Dm.DmService.within_storeMessage first msg).mapErr _
  | history c before limit => exact (Dm.DmService.within_history first c before limit).mapErr _
  | paginateMessages c before limit =>
    refine Within.mapErr ?_ _
    by_cases hlimit : limit = 0
    · rw [hlimit]
      exact .pure _
    · rw [Dm.paginateMessages_eq c before hlimit]
      exact Dm.DmService.within_history first c before limit
  | getMessage c id => exact (Dm.DmService.within_getMessage first c id).mapErr _
  | updateStatus c id new nowMs => exact (Dm.DmService.within_updateStatus first c id new nowMs).mapErr _
  | processReceipt receipt nowMs =>
    exact (Dm.DmService.within_updateStatus first _ _ _ nowMs).mapErr _
  | markRead s c id updatedMs nowMs =>
    exact (Dm.DmService.within_markRead first s c id updatedMs nowMs).mapErr _
  | markReadAndEmit s c id outbox updatedMs nowMs sectorId enqueuedMs =>
    refine Within.mapErr ?_ _
    refine (Dm.DmService.within_markRead first s c id updatedMs nowMs).bind fun receipt => ?_
    exact (Dm.within_enqueueReceipt second outbox receipt sectorId enqueuedMs).bind fun _ => .pure _
  | sendText s c text nowMs id sectorId =>
    refine Within.mapErr ?_ _
    refine (Dm.DmService.within_resumeConversation first c).bind fun conv => ?_
    refine (Dm.DmService.within_storeMessage first _).bind fun _ => ?_
    refine ((Outbox.within_enqueue second _ _).mapErr _).bind fun _ => ?_
    exact (Dm.DmService.within_saveConversation first _).bind fun _ => .pure _
  | acknowledgeSent c id nowMs =>
    exact (Dm.DmService.within_updateStatus first c id .sent nowMs).mapErr _
  | enqueueReceipt outbox receipt sectorId nowMs =>
    exact (Dm.within_enqueueReceipt first outbox receipt sectorId nowMs).mapErr _
  | processInboundDm r bytes nowMs receiptMs sectorId enqueuedMs =>
    exact (Dm.DmReceiver.within_processInboundDm first second third blake3 r bytes nowMs receiptMs sectorId
      enqueuedMs).mapErr _

theorem GroupCall.within (c : GroupCall) : c.prog.Within StoreOp.cf {.groups} := by
  have h : Cf.groups ∈ ({.groups} : Set Cf) := rfl
  cases c with
  | createGroup label founders g ts =>
    refine Within.mapErr ?_ _
    unfold Group.createGroup
    split
    · exact .fail _
    · exact ((within_putRaw h _ _).mapErr _).bind fun _ => .pure _
  | getManifest g => exact (Group.within_getManifest h g).mapErr _
  | persistManifest man => exact ((within_putRaw h _ _).mapErr _).mapErr _
  | loadManifest g =>
    refine (((within_getRaw h _).mapErr _).bind fun bytes => ?_).mapErr _
    split
    · exact (Within.lift _).bind fun _ => .pure _
    · exact .pure _
  | membership g call =>
    refine Within.mapErr ?_ _
    rw [call.prog_eq]
    exact Group.within_updateManifest h g _
  | sendMessage g sender machine text id ts =>
    refine ((Group.within_getManifest h g).bind fun man => ?_).mapErr _
    split
    · exact .fail _
    · exact ((within_putRaw h _ _).mapErr _).bind fun _ => .pure _
  | receiveMessage msg =>
    refine ((Group.within_getManifest h _).bind fun man => ((within_getRaw h _).mapErr _).bind fun known => ?_).mapErr _
    split
    · exact .pure _
    · exact ((within_putRaw h _ _).mapErr _).bind fun _ => .pure _
  | getMessage g id =>
    refine (((within_getRaw h _).mapErr _).bind fun bytes => ?_).mapErr _
    split
    · exact (Within.lift _).bind fun _ => .pure _
    · exact .pure _
  | listMessages g before limit =>
    exact ((within_iteratorCf h _).bind fun _ => (Within.lift _).bind fun _ => .pure _).mapErr _
  | processReceipt receipt => exact (Group.within_processReceipt h receipt).mapErr _
  | markDelivered g id who machine now => exact (Group.within_markStatus h g id who machine .delivered now).mapErr _
  | markRead g id who machine now => exact (Group.within_markStatus h g id who machine .read now).mapErr _

theorem InboxCall.within (c : InboxCall) : c.prog.Within StoreOp.cf {.inboxIndex} := by
  have h : Cf.inboxIndex ∈ ({.inboxIndex} : Set Cf) := rfl
  cases c with
  | upsert s entry => exact (s.within_upsert h entry).mapErr _
  | markRead s r => exact (s.within_markRead h r).mapErr _
  | listInbox s limit => exact (((within_prefixScanRaw h _).mapErr _).bind fun _ => .lift _).mapErr _
  | unreadTotal s => exact (((within_prefixScanRaw h _).mapErr _).bind fun _ => .lift _).mapErr _
  | stats s => exact (((within_prefixScanRaw h _).mapErr _).bind fun _ => .lift _).mapErr _

/-- A call reaches the column families it says, in every run of it. -/
theorem Call.within (blake3 : Bytes → Arr 32) (c : Call) : (c.prog blake3).Within StoreOp.cf {cf | cf ∈ c.touches} := by
  have single : ∀ {cf : Cf}, ({cf} : Set Cf) ⊆ {cf' | cf' ∈ [cf]} := fun h => List.mem_singleton.mpr h
  cases c with
  | contact c => exact c.within.mono single
  | sector c => exact c.within.mono single
  | outbox c => exact c.within.mono single
  | dm c => exact c.within blake3
  | group c => exact c.within.mono single
  | inbox c => exact c.within.mono single

/-! ## Clients -/

/-- The client only makes calls that keep to `A`. -/
def Client.Touches {ε α : Type} (A : Set Cf) (p : Client ε α) : Prop :=
  p.Within (fun c : Call => c) {c : Call | ∀ cf ∈ c.touches, cf ∈ A}

theorem Client.Touches.within {ε α : Type} {A : Set Cf} {p : Client ε α} (h : p.Touches A) (blake3 : Bytes → Arr 32) :
    (p.prog blake3).Within StoreOp.cf A := by
  have hcalls : ∀ c : Call, (∀ cf ∈ c.touches, cf ∈ A) →
      ((c.prog blake3).attempt : DbProg ε _).Within StoreOp.cf A := fun c hc => ((c.within blake3).mono hc).attempt
  exact Within.expand (Within.mono h hcalls)

theorem Client.touches_calls {ε : Type} {A : Set Cf} {l : List Call} (h : ∀ c ∈ l, ∀ cf ∈ c.touches, cf ∈ A) :
    (Client.calls l : Client ε Unit).Touches A := by
  induction l with
  | nil => exact .ret _
  | cons c l ih => exact ⟨h c List.mem_cons_self, fun _ => ih fun c' hc' => h c' (List.mem_cons_of_mem _ hc')⟩

variable {ι ε α : Type} [DecidableEq ι]

/-- **The services are independent.** Take clients that keep to the column
families in `A`, among clients that keep to the others, and change everything
else: the other clients, what is in the other column families, and when and
how often the others have a turn and fail. What becomes of the clients that
keep to `A`, and of the column families in `A`, does not change. -/
theorem services_independent (blake3 : Bytes → Arr 32) {A : Set Cf} {G : Set ι} [DecidablePred (· ∈ G)]
    {clients others : ι → Client ε α} {db db' : ZeroDb} (hin : ∀ i ∈ G, (clients i).Touches A)
    (hout : ∀ i ∉ G, (clients i).Touches Aᶜ ∧ (others i).Touches Aᶜ) (hsame : ∀ i ∈ G, clients i = others i)
    (hdb : ∀ cf ∈ A, db.cf cf = db'.cf cf) {sched sched' : List (ι × Option Fault)}
    (hsched : (sched.filter fun x => x.1 ∈ G) = sched'.filter fun x => x.1 ∈ G) :
    (∀ i ∈ G, (runClients blake3 db clients sched).threads i = (runClients blake3 db' others sched').threads i) ∧
      ∀ cf ∈ A, (runClients blake3 db clients sched).state.cf cf = (runClients blake3 db' others sched').state.cf cf := by
  have hp : Interleave.Pool.Apart StoreOp.cf A G ⟨fun i => (clients i).prog blake3, db⟩ :=
    ⟨fun i hi => (hin i hi).within blake3, fun i hi => (hout i hi).1.within blake3⟩
  have hq : Interleave.Pool.Apart StoreOp.cf A G ⟨fun i => (others i).prog blake3, db'⟩ :=
    ⟨fun i hi => (hsame i hi ▸ hin i hi).within blake3, fun i hi => (hout i hi).2.within blake3⟩
  have hpq : Interleave.Pool.Agrees (fun cf (db : ZeroDb) => db.cf cf) A G
      ⟨fun i => (clients i).prog blake3, db⟩ ⟨fun i => (others i).prog blake3, db'⟩ :=
    ⟨fun i hi => congrArg (Client.prog blake3) (hsame i hi), hdb⟩
  have hrun := Interleave.Pool.agrees_run placed_handleAt hp hq hpq hsched
  exact ⟨hrun.threads, hrun.state⟩

/-- A founder makes a group and adds a member, next to a client that opens a
conversation or fills an inbox. -/
def founder : List Call :=
  [.group (.createGroup Str.empty ⟨[⟨Arr.fill 16 1⟩], by decide⟩ ⟨Arr.fill 16 9⟩ 5),
    .group (.membership ⟨Arr.fill 16 9⟩ (.addMember ⟨Arr.fill 16 1⟩ ⟨Arr.fill 16 2⟩ 6 6))]

def opener : List Call := [.dm (.openConversation ⟨⟨Arr.fill 16 1⟩, ⟨Arr.fill 16 1⟩, ⟨⟨Arr.fill 16 1⟩⟩⟩ ⟨Arr.fill 16 2⟩)]

def indexer : List Call :=
  [.inbox (.upsert ⟨⟨Arr.fill 16 1⟩, ⟨Arr.fill 16 1⟩⟩ ⟨⟨Arr.fill 32 7⟩, .dm, 5, 3, ⟨Arr.fill 16 2⟩, Str.empty⟩)]

/-- The other client's turns come between, and one of them fails. -/
theorem services_independent_founder :
    let blake3 : Bytes → Arr 32 := fun _ => Arr.fill 32 9
    let next := (none : Option Fault)
    let clients : Bool → Client Unit Unit := fun i => .calls (if i then founder else opener)
    let others : Bool → Client Unit Unit := fun i => .calls (if i then founder else indexer)
    let sched := [(true, next), (false, some ⟨⟨"IO error"⟩, 0⟩), (true, next), (false, next), (true, next)]
    let sched' := [(true, next), (true, next), (true, next), (false, next)]
    (∀ i ∈ {i : Bool | i = true}, (runClients blake3 ZeroDb.empty clients sched).threads i =
      (runClients blake3 ZeroDb.empty others sched').threads i) ∧
    ∀ cf ∈ ({.groups} : Set Cf), (runClients blake3 ZeroDb.empty clients sched).state.cf cf =
      (runClients blake3 ZeroDb.empty others sched').state.cf cf := by
  intro blake3 next clients others sched sched'
  refine services_independent blake3 (fun i hi => ?_) (fun i hi => ?_) (fun i hi => ?_) (fun cf _ => rfl) rfl
  · subst hi
    exact Client.touches_calls (by simp [founder, Call.touches])
  · have hfalse : i = false := by simpa using hi
    subst hfalse
    exact ⟨Client.touches_calls (by simp [opener, Call.touches, DmCall.touches]),
      Client.touches_calls (by simp [indexer, Call.touches])⟩
  · subst hi
    rfl

end Sdk

end ZeroSdk
