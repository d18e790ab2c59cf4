/-
Group membership: the permission table, the four operations on a manifest
(`add_member`, `remove_member`, `promote`, `demote`), and `create_group`.

Each of the four reads the manifest, decides on it alone, and writes it back
whole (`updateManifest`), so the decision is a function of the manifest:
`none` for nothing to do, `some` for the manifest to store. `Call.decide_cases`
says once what a decision can be, guards included; the invariants are read
off it.
-/
import Mathlib.Data.Fin.VecNotation
import ZeroSdk.Group.Types

namespace ZeroSdk.Group

/-! ## Permissions -/

/-- Permission matrix. Row: role, from Owner to Member. Column: action, from
SendMessage to DeleteGroup. -/
def permissionTable : Fin 4 → Fin 6 → Bool := ![
  -- Owner: all actions
  ![true, true, true, true, true, true],
  -- Admin: not PromoteDemoteAdmin, not DeleteGroup
  ![true, true, true, true, false, false],
  -- Moderator: SendMessage, RemoveMember (of a Member only: `checkPermission`)
  ![true, false, true, false, false, false],
  -- Member: SendMessage
  ![true, false, false, false, false, false]]

def roleIdx : Role → Fin 4
  | .owner => 0
  | .admin => 1
  | .moderator => 2
  | .member => 3

def actionIdx : GroupAction → Fin 6
  | .sendMessage => 0
  | .addMember => 1
  | .removeMember => 2
  | .promoteDemoteMod => 3
  | .promoteDemoteAdmin => 4
  | .deleteGroup => 5

/-- Whether `actorRole` may perform `action`. -/
def checkPermission (actorRole : Role) (action : GroupAction) (targetRole : Option Role) : Bool :=
  if !permissionTable (roleIdx actorRole) (actionIdx action) then false
  -- a Moderator removes plain Members only
  else if actorRole = .moderator ∧ action = .removeMember then targetRole = some .member
  else true

/-- Lower is more privileged. -/
def rolePrivilege : Role → Nat
  | .owner => 0
  | .admin => 1
  | .moderator => 2
  | .member => 3

/-- The action needed to move a member to, or from, a role. -/
def actionForRoleChange : Role → GroupAction
  | .admin | .owner => .promoteDemoteAdmin
  | .moderator | .member => .promoteDemoteMod

/-! ## The manifest -/

/-- Members in the order of their `identity_id` bytes. -/
def idLe (a b : GroupMember) : Prop := a.identityId.bytes ≤ b.identityId.bytes

instance : DecidableRel idLe := fun a b => inferInstanceAs (Decidable (a.identityId.bytes ≤ b.identityId.bytes))
instance : Std.Total idLe := ⟨fun a b => le_total a.identityId.bytes b.identityId.bytes⟩
instance : IsTrans GroupMember idLe := ⟨fun _ _ _ h h' => le_trans (α := Arr 16) h h'⟩

/-- `normalize_members`. -/
def normalizeMembers (man : GroupManifest) : GroupManifest := { man with members := man.members.sortBy idLe }

/-- `encode_manifest`; serialising to a growing vector does not fail. -/
def encodeManifest (man : GroupManifest) : Bytes := GroupManifest.codec.enc man

def decodeManifest (b : Bytes) : Except GroupError GroupManifest :=
  (Postcard.fromBytes GroupManifest.codec b).mapError (.mls "decode: ")

def getManifest (groupId : GroupId) : DbProg GroupError GroupManifest := do
  let bytes ← (getRaw .groups groupId.bytes.val).mapErr .storage
  let bytes ← Prog.okOr bytes (.groupNotFound groupId)
  Prog.lift (decodeManifest bytes)

/-- What the operations that change a manifest share: the read, the decision
on the manifest read, and the write of the manifest it returns. -/
def updateManifest (groupId : GroupId) (decision : GroupManifest → Except GroupError (Option GroupManifest)) :
    DbProg GroupError Unit := do
  let man ← getManifest groupId
  match decision man with
  | .error e => Prog.fail e
  | .ok none => pure ()
  | .ok (some man) => (putRaw .groups groupId.bytes.val (encodeManifest man)).mapErr .storage

/-- The manifest's next epoch, normalised. -/
def nextEpoch (man : GroupManifest) (now : UInt64) : GroupManifest :=
  normalizeMembers { man with mlsEpoch := man.mlsEpoch + 1, updatedAtMs := now }

/-- The first member with identity `id`. -/
def findMember (man : GroupManifest) (id : IdentityId) : Option GroupMember :=
  man.members.val.find? fun m => m.identityId = id

/-! ## create_group -/

/-- All founders are Owners. `groupId` is the UUIDv7 drawn, `ts` the clock. -/
def createGroup (label : Str) (founders : Vec IdentityId) (groupId : GroupId) (ts : UInt64) :
    DbProg GroupError GroupId := do
  if label.bytes.length > 64 then
    Prog.fail (.nameTooLong label.bytes.length)
  else
    let man : GroupManifest := {
      groupId
      name := label
      creator := founders.val.head?.getD ⟨Arr.fill 16 0⟩
      members := founders.map fun id => ⟨id, ⟨Arr.fill 16 0⟩, .owner, ts⟩
      mlsEpoch := 0
      mlsStateBlob := Vec.empty
      createdAtMs := ts
      updatedAtMs := ts }
    (putRaw .groups groupId.bytes.val (encodeManifest (normalizeMembers man))).mapErr .storage
    pure groupId

/-! ## promote and demote -/

/-- Sets the role of the first member with identity `target`. -/
def setRole (target : IdentityId) (role : Role) : List GroupMember → List GroupMember
  | [] => []
  | m :: l => if m.identityId = target then { m with role } :: l else m :: setRole target role l

theorem setRole_length (target : IdentityId) (role : Role) (l : List GroupMember) :
    (setRole target role l).length = l.length := by
  induction l with
  | nil => rfl
  | cons m l ih => simp only [setRole]; split <;> simp [ih]

/-- `promote` and `demote` up to the two points where they differ: which new
roles are refused for a target's role, and which action the caller needs. -/
def changeRole (refused : Role → Role → Bool) (actionFor : Role → Role → GroupAction) (caller target : IdentityId)
    (newRole : Role) (now : UInt64) (man : GroupManifest) : Except GroupError (Option GroupManifest) :=
  match findMember man caller with
  | none => .error (.notAMember caller)
  | some callerMember =>
    match findMember man target with
    | none => .error (.notAMember target)
    | some targetMember =>
      if refused newRole targetMember.role then .error .invalidManifestUpdate
      else if !checkPermission callerMember.role (actionFor newRole targetMember.role) (some targetMember.role) then
        .error (.permissionDenied callerMember.role (actionFor newRole targetMember.role))
      else
        let members : Vec GroupMember :=
          ⟨setRole target newRole man.members.val, by rw [setRole_length]; exact man.members.property⟩
        .ok (some (nextEpoch { man with members } now))

/-- `promote` picks the action by the new role. -/
def promoteIn : (caller target : IdentityId) → (newRole : Role) → (now : UInt64) → GroupManifest →
    Except GroupError (Option GroupManifest) :=
  changeRole (fun new old => rolePrivilege new ≥ rolePrivilege old) fun new _ => actionForRoleChange new

/-- `demote` picks the action by the target's role. -/
def demoteIn : (caller target : IdentityId) → (newRole : Role) → (now : UInt64) → GroupManifest →
    Except GroupError (Option GroupManifest) :=
  changeRole (fun new old => rolePrivilege new ≤ rolePrivilege old) fun _ old => actionForRoleChange old

/-! ## add_member and remove_member -/

def maxGroupSize : Nat := 256

/-- `addedAt` and `now` are the two clock readings. -/
def addMemberIn (caller newMember : IdentityId) (addedAt now : UInt64) (man : GroupManifest) :
    Except GroupError (Option GroupManifest) :=
  match findMember man caller with
  | none => .error (.notAMember caller)
  | some callerMember =>
    if !checkPermission callerMember.role .addMember none then
      .error (.permissionDenied callerMember.role .addMember)
    else if man.members.val.any fun m => m.identityId = newMember then .ok none
    else if h : man.members.val.length ≥ maxGroupSize then .error (.groupFull man.members.val.length)
    else
      let members : Vec GroupMember :=
        ⟨man.members.val ++ [⟨newMember, ⟨Arr.fill 16 0⟩, .member, addedAt⟩], by
          simp only [maxGroupSize] at h
          rw [List.length_append, List.length_singleton]; omega⟩
      .ok (some (nextEpoch { man with members } now))

def removeMemberIn (caller target : IdentityId) (now : UInt64) (man : GroupManifest) :
    Except GroupError (Option GroupManifest) :=
  match findMember man caller with
  | none => .error (.notAMember caller)
  | some callerMember =>
    match findMember man target with
    | none => .error (.notAMember target)
    | some targetMember =>
      if !checkPermission callerMember.role .removeMember (some targetMember.role) then
        .error (.permissionDenied callerMember.role .removeMember)
      -- nobody but an Owner removes an equal or higher rank
      else if callerMember.role ≠ .owner ∧ rolePrivilege callerMember.role ≥ rolePrivilege targetMember.role then
        .error (.permissionDenied callerMember.role .removeMember)
      else
        .ok (some (nextEpoch { man with members := man.members.retain fun m => m.identityId ≠ target } now))

def promote (groupId : GroupId) (caller target : IdentityId) (newRole : Role) (now : UInt64) :
    DbProg GroupError Unit := updateManifest groupId (promoteIn caller target newRole now)

def demote (groupId : GroupId) (caller target : IdentityId) (newRole : Role) (now : UInt64) :
    DbProg GroupError Unit := updateManifest groupId (demoteIn caller target newRole now)

def addMember (groupId : GroupId) (caller newMember : IdentityId) (addedAt now : UInt64) :
    DbProg GroupError Unit := updateManifest groupId (addMemberIn caller newMember addedAt now)

def removeMember (groupId : GroupId) (caller target : IdentityId) (now : UInt64) :
    DbProg GroupError Unit := updateManifest groupId (removeMemberIn caller target now)

/-! ## Calls -/

/-- A membership call: its arguments and the clock readings it makes. -/
inductive Call
  | addMember (caller newMember : IdentityId) (addedAt now : UInt64)
  | removeMember (caller target : IdentityId) (now : UInt64)
  | promote (caller target : IdentityId) (newRole : Role) (now : UInt64)
  | demote (caller target : IdentityId) (newRole : Role) (now : UInt64)

def Call.caller : Call → IdentityId
  | .addMember caller _ _ _ | .removeMember caller _ _ | .promote caller _ _ _ | .demote caller _ _ _ => caller

def Call.prog (groupId : GroupId) : Call → DbProg GroupError Unit
  | .addMember caller new addedAt now => Group.addMember groupId caller new addedAt now
  | .removeMember caller target now => Group.removeMember groupId caller target now
  | .promote caller target role now => Group.promote groupId caller target role now
  | .demote caller target role now => Group.demote groupId caller target role now

def Call.decision : Call → GroupManifest → Except GroupError (Option GroupManifest)
  | .addMember caller new addedAt now => addMemberIn caller new addedAt now
  | .removeMember caller target now => removeMemberIn caller target now
  | .promote caller target role now => promoteIn caller target role now
  | .demote caller target role now => demoteIn caller target role now

theorem Call.prog_eq (c : Call) (g : GroupId) : c.prog g = updateManifest g c.decision := by cases c <;> rfl

/-- The database after a sequence of calls, each on a group of its own. -/
def runCalls (db : ZeroDb) (calls : List (GroupId × Call)) : ZeroDb :=
  calls.foldl (fun db c => (db.run (c.2.prog c.1)).2) db

/-- The manifest `get_manifest` reads. -/
def manifestAt (db : ZeroDb) (g : GroupId) : Except GroupError GroupManifest := (db.run (getManifest g)).1

theorem manifestAt_eq (db : ZeroDb) (g : GroupId) :
    manifestAt db g = match db.get .groups g.bytes.val with
      | none => .error (.groupNotFound g)
      | some b => decodeManifest b := by
  simp only [manifestAt, getManifest, Prog.run_bind, Prog.run_mapErr, run_getRaw, Except.mapError, Prog.run_okOr]
  cases db.get .groups g.bytes.val <;> rfl

theorem manifestAt_eq_ok {db : ZeroDb} {g : GroupId} {man : GroupManifest} :
    manifestAt db g = .ok man ↔ ∃ b, db.get .groups g.bytes.val = some b ∧ decodeManifest b = .ok man := by
  rw [manifestAt_eq]
  cases db.get .groups g.bytes.val <;> simp

theorem run_getManifest (db : ZeroDb) (g : GroupId) : db.run (getManifest g) = (manifestAt db g, db) := by
  rw [manifestAt_eq]
  simp only [getManifest, Prog.run_bind, Prog.run_mapErr, run_getRaw, Except.mapError, Prog.run_okOr]
  cases db.get .groups g.bytes.val <;> rfl

@[simp] theorem decodeManifest_encodeManifest (man : GroupManifest) :
    decodeManifest (encodeManifest man) = .ok man := by
  simp [decodeManifest, encodeManifest, Except.mapError]

theorem GroupId.key_inj {g g' : GroupId} : g.bytes.val = g'.bytes.val ↔ g = g' := by
  cases g; cases g'; simp [Subtype.ext_iff]

theorem manifestAt_put (db : ZeroDb) (g g' : GroupId) (man : GroupManifest) :
    manifestAt (db.put .groups g.bytes.val (encodeManifest man)) g' = if g' = g then .ok man else manifestAt db g' := by
  rw [manifestAt_eq, manifestAt_eq, ZeroDb.get_put]
  simp only [GroupId.key_inj, true_and]
  by_cases h : g' = g <;> simp [h]

theorem manifestAt_put_self (db : ZeroDb) (g : GroupId) (man : GroupManifest) :
    manifestAt (db.put .groups g.bytes.val (encodeManifest man)) g = .ok man := by rw [manifestAt_put, if_pos rfl]

/-- What an update can do: fail or find nothing to do, leaving the store as
it was, or store the manifest decided on. -/
theorem updateManifest_cases {db db' : ZeroDb} {g : GroupId} {r : Except GroupError Unit}
    {d : GroupManifest → Except GroupError (Option GroupManifest)}
    (h : db.run (updateManifest g d) = (r, db')) :
    (∃ e, r = .error e ∧ db' = db) ∨
    (∃ man, manifestAt db g = .ok man ∧ d man = .ok none ∧ r = .ok () ∧ db' = db) ∨
    (∃ man man', manifestAt db g = .ok man ∧ d man = .ok (some man') ∧ r = .ok () ∧
      db' = db.put .groups g.bytes.val (encodeManifest man')) := by
  simp only [updateManifest, Prog.run_bind, run_getManifest] at h
  cases hman : manifestAt db g with
  | error e =>
    simp only [hman, Prod.mk.injEq] at h
    exact .inl ⟨e, h.1.symm, h.2.symm⟩
  | ok man =>
    simp only [hman] at h
    cases hd : d man with
    | error e =>
      simp only [hd, Prog.run_fail, Prod.mk.injEq] at h
      exact .inl ⟨e, h.1.symm, h.2.symm⟩
    | ok o =>
      cases o with
      | none =>
        simp only [hd, Prog.run_pure, Prod.mk.injEq] at h
        exact .inr (.inl ⟨man, rfl, hd, h.1.symm, h.2.symm⟩)
      | some man' =>
        simp only [hd, Prog.run_mapErr, run_putRaw, Except.mapError, Prod.mk.injEq] at h
        exact .inr (.inr ⟨man, man', rfl, hd, h.1.symm, h.2.symm⟩)

/-! ## What a decision can be -/

theorem findMember_some {man : GroupManifest} {id : IdentityId} {m : GroupMember} (h : findMember man id = some m) :
    m ∈ man.members.val ∧ m.identityId = id :=
  ⟨List.mem_of_find?_eq_some h, by simpa using List.find?_some h⟩

/-- `add_member` stores a manifest only for a caller who may add and an
identity that is not a member, while the group has room. -/
theorem addMemberIn_some {caller new : IdentityId} {addedAt now : UInt64} {man man' : GroupManifest}
    (h : addMemberIn caller new addedAt now man = .ok (some man')) :
    ∃ cm ms, findMember man caller = some cm ∧ checkPermission cm.role .addMember none = true ∧
      (∀ m ∈ man.members.val, m.identityId ≠ new) ∧ man.members.val.length < maxGroupSize ∧
      ms.val = man.members.val ++ [⟨new, ⟨Arr.fill 16 0⟩, .member, addedAt⟩] ∧
      man' = nextEpoch { man with members := ms } now := by
  simp only [addMemberIn] at h
  split at h
  · cases h
  next cm hcm =>
  split at h
  · cases h
  next hperm =>
  split at h
  · cases h
  next hnew =>
  split at h
  · cases h
  next hroom =>
  simp only [Except.ok.injEq, Option.some.injEq] at h
  refine ⟨cm, _, hcm, by simpa using hperm, fun m hm hid => hnew ?_, by omega, rfl, h.symm⟩
  exact List.any_eq_true.mpr ⟨m, hm, by simpa using hid⟩

/-- `add_member` finds nothing to do only for an existing member. -/
theorem addMemberIn_none {caller new : IdentityId} {addedAt now : UInt64} {man : GroupManifest}
    (h : addMemberIn caller new addedAt now man = .ok none) : ∃ m ∈ man.members.val, m.identityId = new := by
  simp only [addMemberIn] at h
  split at h
  · cases h
  split at h
  · cases h
  split at h
  · next hany => simpa using hany
  split at h
  · cases h
  · simp at h

/-- `remove_member` stores a manifest only for a member target the caller may
remove: an Owner any, another caller a strictly lower rank. -/
theorem removeMemberIn_some {caller target : IdentityId} {now : UInt64} {man : GroupManifest}
    {r : Option GroupManifest} (h : removeMemberIn caller target now man = .ok r) :
    ∃ cm tm, findMember man caller = some cm ∧ findMember man target = some tm ∧
      checkPermission cm.role .removeMember (some tm.role) = true ∧
      (cm.role = .owner ∨ rolePrivilege cm.role < rolePrivilege tm.role) ∧
      r = some (nextEpoch { man with members := man.members.retain fun m => m.identityId ≠ target } now) := by
  simp only [removeMemberIn] at h
  split at h
  · cases h
  next cm hcm =>
  split at h
  · cases h
  next tm htm =>
  split at h
  · cases h
  next hperm =>
  split at h
  · cases h
  next hrank =>
  refine ⟨cm, tm, hcm, htm, by simpa using hperm, ?_, by simpa using h.symm⟩
  by_cases ho : cm.role = .owner
  · exact .inl ho
  · exact .inr (Nat.lt_of_not_le fun hle => hrank ⟨ho, hle⟩)

/-- `promote` and `demote` store a manifest only for a change that is not
refused and that the caller may make. -/
theorem changeRole_some {refused : Role → Role → Bool} {actionFor : Role → Role → GroupAction}
    {caller target : IdentityId} {newRole : Role} {now : UInt64} {man : GroupManifest} {r : Option GroupManifest}
    (h : changeRole refused actionFor caller target newRole now man = .ok r) :
    ∃ cm tm ms, findMember man caller = some cm ∧ findMember man target = some tm ∧
      refused newRole tm.role = false ∧
      checkPermission cm.role (actionFor newRole tm.role) (some tm.role) = true ∧
      ms.val = setRole target newRole man.members.val ∧ r = some (nextEpoch { man with members := ms } now) := by
  simp only [changeRole] at h
  split at h
  · cases h
  next cm hcm =>
  split at h
  · cases h
  next tm htm =>
  split at h
  · cases h
  next href =>
  split at h
  · cases h
  next hperm =>
  exact ⟨cm, tm, _, hcm, htm, by simpa using href, by simpa using hperm, rfl, by simpa using h.symm⟩

/-! ## Members -/

/-- No identity is a member twice. -/
def Distinct (l : List GroupMember) : Prop := (l.map (·.identityId)).Nodup

instance (l : List GroupMember) : Decidable (Distinct l) :=
  inferInstanceAs (Decidable (l.map (·.identityId)).Nodup)

theorem Distinct.eq {l : List GroupMember} (hd : Distinct l) {a b : GroupMember} (ha : a ∈ l) (hb : b ∈ l)
    (h : a.identityId = b.identityId) : a = b := List.inj_on_of_nodup_map hd ha hb h

theorem nextEpoch_perm (man : GroupManifest) (now : UInt64) :
    (nextEpoch man now).members.val.Perm man.members.val := List.perm_insertionSort idLe _

theorem mem_nextEpoch {man : GroupManifest} {now : UInt64} {m : GroupMember} :
    m ∈ (nextEpoch man now).members.val ↔ m ∈ man.members.val := (nextEpoch_perm man now).mem_iff

theorem nextEpoch_distinct {man : GroupManifest} {now : UInt64} :
    Distinct (nextEpoch man now).members.val ↔ Distinct man.members.val :=
  ((nextEpoch_perm man now).map _).nodup_iff

theorem map_id_setRole (target : IdentityId) (role : Role) (l : List GroupMember) :
    (setRole target role l).map (·.identityId) = l.map (·.identityId) := by
  induction l with
  | nil => rfl
  | cons m l ih => simp only [setRole]; split <;> simp [ih]

/-- With distinct identities, `setRole` changes the target's entry and no other. -/
theorem mem_setRole {l : List GroupMember} (hd : Distinct l) {tm : GroupMember} (htm : tm ∈ l) (role : Role)
    {m : GroupMember} :
    m ∈ setRole tm.identityId role l ↔ m ∈ l ∧ m.identityId ≠ tm.identityId ∨ m = { tm with role } := by
  induction l with
  | nil => simp at htm
  | cons a l ih =>
    simp only [Distinct, List.map_cons, List.nodup_cons, List.mem_map, not_exists, not_and] at hd
    simp only [setRole]
    split
    · next ha =>
      have hat : a = tm := by
        rcases List.mem_cons.mp htm with rfl | htm
        · rfl
        · exact absurd ha.symm (hd.1 tm htm)
      subst hat
      simp only [List.mem_cons]
      constructor
      · rintro (rfl | hm)
        · exact .inr rfl
        · exact .inl ⟨.inr hm, hd.1 m hm⟩
      · rintro (⟨rfl | hm, hne⟩ | rfl)
        · exact absurd rfl hne
        · exact .inr hm
        · exact .inl rfl
    · next ha =>
      have htm' : tm ∈ l := by
        rcases List.mem_cons.mp htm with rfl | htm
        · exact absurd rfl ha
        · exact htm
      rw [List.mem_cons, ih hd.2 htm', List.mem_cons]
      constructor
      · rintro (rfl | ⟨hm, hne⟩ | hm)
        · exact .inl ⟨.inl rfl, ha⟩
        · exact .inl ⟨.inr hm, hne⟩
        · exact .inr hm
      · rintro (⟨rfl | hm, hne⟩ | hm)
        · exact .inl rfl
        · exact .inr (.inl ⟨hm, hne⟩)
        · exact .inr (.inr hm)

end ZeroSdk.Group
