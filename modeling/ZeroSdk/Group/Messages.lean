/-
Group messages: `send_message`, `receive_message`, `list_messages`,
`process_receipt`, and the two calls that mark a message delivered or read.

Messages share their column family with the manifests. A manifest is under
the 16 bytes of its group, a message under the 42 bytes of
`group_msg:` + group + message, so neither is taken for the other
(`not_msgPrefix_groupKey`, `makeMsgKey_inj`). After the definitions there is
one lemma for each operation: what it does, given what is stored.
-/
import ZeroSdk.Group.Membership

namespace ZeroSdk.Group

/-- Message ids compare as their bytes. -/
instance : LinearOrder GroupMessageId :=
  LinearOrder.lift' GroupMessageId.bytes fun a b h => by cases a; cases b; simp_all

/-! ## Keys -/

/-- `GROUP_MSG_PREFIX`, `b"group_msg:"`. -/
def groupMsgPrefix : Bytes := Bytes.ascii ['g', 'r', 'o', 'u', 'p', '_', 'm', 's', 'g', ':']

def makeMsgKey (groupId : GroupId) (messageId : GroupMessageId) : Bytes :=
  groupMsgPrefix ++ groupId.bytes.val ++ messageId.bytes.val

def makeMsgPrefix (groupId : GroupId) : Bytes := groupMsgPrefix ++ groupId.bytes.val

theorem groupMsgPrefix_length : groupMsgPrefix.length = 10 := rfl

theorem makeMsgPrefix_length (g : GroupId) : (makeMsgPrefix g).length = 26 := by
  rw [makeMsgPrefix, List.length_append, groupMsgPrefix_length, g.bytes.property]

theorem makeMsgPrefix_isPrefix_iff {g g' : GroupId} {id : GroupMessageId} :
    makeMsgPrefix g <+: makeMsgKey g' id ↔ g = g' := by
  constructor
  · intro ⟨t, ht⟩
    rw [makeMsgPrefix, makeMsgKey] at ht
    obtain ⟨h, -⟩ := List.append_inj ht (by simp only [List.length_append, g.bytes.property, g'.bytes.property])
    exact GroupId.key_inj.mp (List.append_cancel_left h)
  · rintro rfl
    exact List.prefix_append _ _

theorem makeMsgKey_inj {g g' : GroupId} {id id' : GroupMessageId} (h : makeMsgKey g id = makeMsgKey g' id') :
    g = g' ∧ id = id' := by
  have hg : g = g' := makeMsgPrefix_isPrefix_iff.mp ⟨id.bytes.val, h⟩
  subst hg
  obtain ⟨-, h⟩ := List.append_inj h rfl
  cases id; cases id'
  exact ⟨rfl, by simpa [Subtype.ext_iff] using h⟩

/-- A manifest's key is too short to be a message's. -/
theorem not_msgPrefix_groupKey (g g' : GroupId) : ¬ makeMsgPrefix g <+: g'.bytes.val := by
  intro h
  have := h.length_le
  rw [makeMsgPrefix_length, g'.bytes.property] at this
  omega

/-! ## Operations -/

/-- `send_message`; `msgId` is the UUIDv7 drawn, `ts` the clock. -/
def sendMessage (groupId : GroupId) (senderIdentity : IdentityId) (senderMachine : MachineId) (text : Str)
    (msgId : GroupMessageId) (ts : UInt64) : DbProg GroupError GroupMessageId := do
  let man ← getManifest groupId
  if !man.members.val.any fun m => m.identityId = senderIdentity then
    Prog.fail (.notAMember senderIdentity)
  else
    let msg : GroupMessage := ⟨msgId, groupId, senderIdentity, senderMachine, text, man.mlsEpoch, ts, .sent⟩
    (putRaw .groups (makeMsgKey groupId msgId) (GroupMessage.codec.enc msg)).mapErr .storage
    pure msgId

/-- `receive_message`: whether the message was new. -/
def receiveMessage (msg : GroupMessage) : DbProg GroupError Bool := do
  let _man ← getManifest msg.groupId
  let known ← (getRaw .groups (makeMsgKey msg.groupId msg.id)).mapErr .storage
  if known.isSome then
    pure false
  else
    (putRaw .groups (makeMsgKey msg.groupId msg.id) (GroupMessage.codec.enc msg)).mapErr .storage
    pure true

def decodeMessage (b : Bytes) : Except GroupError GroupMessage :=
  (Postcard.fromBytes GroupMessage.codec b).mapError (.mls "")

def getMessage (groupId : GroupId) (messageId : GroupMessageId) : DbProg GroupError (Option GroupMessage) := do
  match ← (getRaw .groups (makeMsgKey groupId messageId)).mapErr .storage with
  | some bytes => (Prog.lift (decodeMessage bytes) : DbProg GroupError GroupMessage) >>= fun msg => pure (some msg)
  | none => pure none

/-- The order of a page: latest first, and of one millisecond the greater id
first. -/
def msgOrder (a b : GroupMessage) : Prop :=
  b.createdAtMs < a.createdAtMs ∨ b.createdAtMs = a.createdAtMs ∧ b.id ≤ a.id

instance : DecidableRel msgOrder := fun a b =>
  inferInstanceAs (Decidable (b.createdAtMs < a.createdAtMs ∨ b.createdAtMs = a.createdAtMs ∧ b.id ≤ a.id))

/-- Whether a message is before the cursor. -/
def isBefore (before : Option GroupMessageId) (msg : GroupMessage) : Bool :=
  match before with
  | none => true
  | some cursor => !decide (cursor ≤ msg.id)

/-- The loop of `list_messages`. -/
def listLoop (pre : Bytes) (before : Option GroupMessageId) :
    List (Except RocksError (Bytes × Bytes)) → Except GroupError (List GroupMessage)
  | [] => .ok []
  | .error e :: _ => .error (.storage (.rocks e))
  | .ok (key, value) :: items =>
    if !pre.isPrefixOf key then .ok []
    else match decodeMessage value with
      | .error e => .error e
      | .ok msg =>
        if isBefore before msg then (listLoop pre before items).map (msg :: ·) else listLoop pre before items

/-- `list_messages`: collects, sorts, truncates. -/
def listMessages (groupId : GroupId) (before : Option GroupMessageId) (limit : Nat) :
    DbProg GroupError (List GroupMessage) := do
  let pre := makeMsgPrefix groupId
  let items ← iteratorCf .groups (.forward pre)
  let messages ← Prog.lift (listLoop pre before items)
  pure ((messages.insertionSort msgOrder).take limit)

/-- Statuses in the order messages go through them. -/
def GroupMessageStatus.rank : GroupMessageStatus → Nat
  | .sent => 0
  | .delivered => 1
  | .read => 2

def isForwardTransition (current new : GroupMessageStatus) : Bool := new.rank > current.rank

/-- `process_receipt`: whether the status was updated. -/
def processReceipt (receipt : GroupReceiptPayload) : DbProg GroupError Bool := do
  let key := makeMsgKey receipt.groupId receipt.messageId
  match ← (getRaw .groups key).mapErr .storage with
  | none => pure false
  | some bytes =>
    let msg ← (Prog.lift (decodeMessage bytes) : DbProg GroupError GroupMessage)
    if !isForwardTransition msg.status receipt.status then
      pure false
    else
      (putRaw .groups key (GroupMessage.codec.enc { msg with status := receipt.status })).mapErr .storage
      pure true

/-- `mark_status`: the receipt to send on, when it changed something. -/
def markStatus (groupId : GroupId) (messageId : GroupMessageId) (recipientIdentity : IdentityId)
    (recipientMachine : MachineId) (status : GroupMessageStatus) (now : UInt64) :
    DbProg GroupError (Option GroupReceiptPayload) := do
  let receipt : GroupReceiptPayload := ⟨messageId, groupId, recipientIdentity, recipientMachine, status, now⟩
  let updated ← processReceipt receipt
  if updated then pure (some receipt) else pure none

def markDelivered (groupId : GroupId) (messageId : GroupMessageId) (recipientIdentity : IdentityId)
    (recipientMachine : MachineId) (now : UInt64) : DbProg GroupError (Option GroupReceiptPayload) :=
  markStatus groupId messageId recipientIdentity recipientMachine .delivered now

def markRead (groupId : GroupId) (messageId : GroupMessageId) (recipientIdentity : IdentityId)
    (recipientMachine : MachineId) (now : UInt64) : DbProg GroupError (Option GroupReceiptPayload) :=
  markStatus groupId messageId recipientIdentity recipientMachine .read now

/-! ## What the operations do -/

@[simp] theorem decodeMessage_enc (m : GroupMessage) : decodeMessage (GroupMessage.codec.enc m) = .ok m := by
  simp [decodeMessage, Except.mapError]

theorem createGroup_cases (db : ZeroDb) (label : Str) (founders : Vec IdentityId) (g : GroupId) (ts : UInt64) :
    (db.run (createGroup label founders g ts)).2 = db ∨
      ∃ man, (db.run (createGroup label founders g ts)).2 = db.put .groups g.bytes.val (encodeManifest man) := by
  simp only [createGroup]
  split
  · exact .inl rfl
  · exact .inr ⟨_, rfl⟩

/-- `send_message` fails and writes nothing, or the sender is a member and the
message is stored with the manifest's epoch. -/
theorem sendMessage_cases (db : ZeroDb) (g : GroupId) (sender : IdentityId) (machine : MachineId) (text : Str)
    (id : GroupMessageId) (ts : UInt64) :
    (∃ e, db.run (sendMessage g sender machine text id ts) = (.error e, db)) ∨
    ∃ man, manifestAt db g = .ok man ∧ (∃ m ∈ man.members.val, m.identityId = sender) ∧
      db.run (sendMessage g sender machine text id ts) = (.ok id, db.put .groups (makeMsgKey g id)
        (GroupMessage.codec.enc ⟨id, g, sender, machine, text, man.mlsEpoch, ts, .sent⟩)) := by
  simp only [sendMessage, Prog.run_bind, run_getManifest]
  cases hman : manifestAt db g with
  | error e => exact .inl ⟨e, rfl⟩
  | ok man =>
    simp only
    split
    · exact .inl ⟨_, rfl⟩
    · next hmem => exact .inr ⟨man, rfl, by simpa using hmem, rfl⟩

/-- `receive_message` fails and writes nothing, finds the message stored, or
stores it for a group it knows. -/
theorem receiveMessage_cases (db : ZeroDb) (msg : GroupMessage) :
    (∃ e, db.run (receiveMessage msg) = (.error e, db)) ∨
    ((db.get .groups (makeMsgKey msg.groupId msg.id)).isSome ∧ db.run (receiveMessage msg) = (.ok false, db)) ∨
    ((∃ man, manifestAt db msg.groupId = .ok man) ∧ db.get .groups (makeMsgKey msg.groupId msg.id) = none ∧
      db.run (receiveMessage msg) =
        (.ok true, db.put .groups (makeMsgKey msg.groupId msg.id) (GroupMessage.codec.enc msg))) := by
  simp only [receiveMessage, Prog.run_bind, run_getManifest]
  cases manifestAt db msg.groupId with
  | error e => exact .inl ⟨e, rfl⟩
  | ok man =>
    simp only [Prog.run_mapErr, run_getRaw, Except.mapError]
    cases db.get .groups (makeMsgKey msg.groupId msg.id) with
    | some b => exact .inr (.inl ⟨rfl, rfl⟩)
    | none => exact .inr (.inr ⟨⟨man, rfl⟩, rfl, rfl⟩)

theorem run_processReceipt_none {db : ZeroDb} {r : GroupReceiptPayload}
    (h : db.get .groups (makeMsgKey r.groupId r.messageId) = none) : db.run (processReceipt r) = (.ok false, db) := by
  simp only [processReceipt, Prog.run_bind, Prog.run_mapErr, run_getRaw, Except.mapError, h, Prog.run_pure]

theorem run_processReceipt_some {db : ZeroDb} {r : GroupReceiptPayload} {m : GroupMessage}
    (h : db.get .groups (makeMsgKey r.groupId r.messageId) = some (GroupMessage.codec.enc m)) :
    db.run (processReceipt r) =
      if isForwardTransition m.status r.status then
        (.ok true, db.put .groups (makeMsgKey r.groupId r.messageId)
          (GroupMessage.codec.enc { m with status := r.status }))
      else (.ok false, db) := by
  simp only [processReceipt, Prog.run_bind, Prog.run_mapErr, run_getRaw, Except.mapError, h, decodeMessage_enc,
    Prog.run_lift]
  cases isForwardTransition m.status r.status <;> rfl

theorem run_markStatus (db : ZeroDb) (g : GroupId) (id : GroupMessageId) (who : IdentityId) (machine : MachineId)
    (status : GroupMessageStatus) (now : UInt64) :
    (db.run (markStatus g id who machine status now)).2 =
      (db.run (processReceipt ⟨id, g, who, machine, status, now⟩)).2 := by
  simp only [markStatus, ZeroDb.run, Prog.run_bind]
  rcases Prog.run ZeroDb.handle (processReceipt ⟨id, g, who, machine, status, now⟩) db with ⟨r, db'⟩
  cases r with
  | error e => rfl
  | ok updated => cases updated <;> rfl

/-! ## Listing -/

instance : Std.Total msgOrder := ⟨fun a b => by
  rcases lt_trichotomy a.createdAtMs.toNat b.createdAtMs.toNat with h | h | h
  · exact .inr (.inl (UInt64.lt_iff_toNat_lt.mpr h))
  · have h := UInt64.toNat_inj.mp h
    rcases le_total a.id b.id with hid | hid
    · exact .inr (.inr ⟨h, hid⟩)
    · exact .inl (.inr ⟨h.symm, hid⟩)
  · exact .inl (.inl (UInt64.lt_iff_toNat_lt.mpr h))⟩

instance : IsTrans GroupMessage msgOrder := ⟨fun a b c hab hbc => by
  rcases hab with hab | ⟨hab, hid⟩ <;> rcases hbc with hbc | ⟨hbc, hid'⟩
  · exact .inl (UInt64.lt_trans hbc hab)
  · exact .inl (hbc ▸ hab)
  · exact .inl (hab ▸ hbc)
  · exact .inr ⟨hbc.trans hab, le_trans hid' hid⟩⟩

theorem msgOrder_antisymm {a b : GroupMessage} (hab : msgOrder a b) (hba : msgOrder b a) : a.id = b.id := by
  rcases hab with hab | ⟨hab, hid⟩
  · rcases hba with hba | ⟨hba, -⟩
    · exact absurd (UInt64.lt_trans hab hba) (UInt64.lt_irrefl _)
    · exact absurd (hba ▸ hab) (UInt64.lt_irrefl _)
  · rcases hba with hba | ⟨-, hid'⟩
    · exact absurd (hab ▸ hba) (UInt64.lt_irrefl _)
    · exact le_antisymm hid' hid

/-- The messages under the prefix of `g` are `msgs`, in key order. -/
def Stores (db : ZeroDb) (g : GroupId) (msgs : List GroupMessage) : Prop :=
  ((db.cf .groups).select (makeMsgPrefix g).isPrefixOf).map (·.2) = msgs.map GroupMessage.codec.enc

theorem listLoop_ok {pre : Bytes} (before : Option GroupMessageId) {items : KvPairs} {msgs : List GroupMessage}
    (h : (items.takeWhile fun e => pre.isPrefixOf e.1).map (·.2) = msgs.map GroupMessage.codec.enc) :
    listLoop pre before (items.map .ok) = .ok (msgs.filter (isBefore before)) := by
  induction items generalizing msgs with
  | nil =>
    cases msgs with
    | nil => rfl
    | cons m msgs => cases h
  | cons e items ih =>
    obtain ⟨k, v⟩ := e
    by_cases hk : pre.isPrefixOf k = true
    · simp only [List.takeWhile_cons, hk, if_true, List.map_cons] at h
      cases msgs with
      | nil => cases h
      | cons m msgs =>
        obtain ⟨rfl, hrest⟩ := List.cons.inj h
        simp only [List.map_cons, listLoop, hk, decodeMessage_enc, ih hrest]
        by_cases hb : isBefore before m = true <;> simp [hb, Except.map]
    · simp only [List.takeWhile_cons, hk] at h
      cases msgs with
      | nil => simp [listLoop, hk]
      | cons m msgs => cases h

theorem run_listMessages {db : ZeroDb} {g : GroupId} {msgs : List GroupMessage} (h : Stores db g msgs)
    (before : Option GroupMessageId) (limit : Nat) :
    db.run (listMessages g before limit) =
      (.ok (((msgs.filter (isBefore before)).insertionSort msgOrder).take limit), db) := by
  have hloop : listLoop (makeMsgPrefix g) before (((db.cf .groups).forwardFrom (makeMsgPrefix g)).map .ok) =
      .ok (msgs.filter (isBefore before)) := listLoop_ok before (by rw [takeWhile_isPrefixOf]; exact h)
  simp only [listMessages, Prog.run_bind, run_iteratorCf, ZeroDb.items, hloop, Prog.run_lift, Prog.run_pure]

end ZeroSdk.Group
