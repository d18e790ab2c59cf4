/-
What survives races, for manifests. Membership calls read the manifest and
write it back later, with no lock, so calls that overlap undo each other's
updates. What each decision keeps of the manifest it was taken on is still
kept: whichever manifest was read, it satisfied the invariant, and so does
the one written.

Two such invariants, for any clients of all services, in every schedule and
with RocksDB failing anywhere. Who is not an Owner of a group changes neither
its Owners nor its Admins (`privileges_contained`). A manifest stays well
formed, and keeps the members nobody acts on (`members_spared`).
-/
import ZeroSdk.Group.Concurrent
import ZeroSdk.Group.Invariant
import ZeroSdk.Group.Privilege
import ZeroSdk.Sdk.Isolation
import ZeroSdk.Sdk.Soundness
import ZeroSdk.Storage.Pinned

namespace ZeroSdk
open Prog
open ZeroDb (handleAt)

/-! ## One entry of `CF_GROUPS` -/

/-- The entry is there and is a `K`. -/
abbrev GroupEntry (key : Bytes) (K : Bytes → Prop) : ZeroDb → Prop := Pinned (fun _ _ _ => True) .groups key K

namespace Group
variable {key : Bytes} {K : Bytes → Prop}

theorem entry_getRaw (key' : Bytes) : ((getRaw .groups key').mapErr GroupError.storage).Safe handleAt (GroupEntry key K)
    (Returns (fun _ => True) fun b => key' = key → ∃ v, b = some v ∧ K v) := by
  refine pinned_getRaw.mapErr fun r hr => ?_
  cases r with
  | error e => trivial
  | ok b => exact hr.2 rfl

theorem entry_getManifest (g : GroupId) : (getManifest g).Safe handleAt (GroupEntry key K)
    (Returns (fun _ => True) fun man => g.bytes.val = key → ∃ v, K v ∧ decodeManifest v = .ok man) := by
  refine (entry_getRaw _).andThen fun b hb => ?_
  cases b with
  | none => exact .ret trivial
  | some v =>
    change Safe _ _ _ (lift (decodeManifest v))
    cases hdec : decodeManifest v with
    | error e => exact .ret trivial
    | ok man =>
      refine .ret fun hg => ?_
      obtain ⟨v', hv', hK⟩ := hb hg
      cases hv'
      exact ⟨v, hK, hdec⟩

theorem entry_putManifest {g : GroupId} {man : GroupManifest} (hK : g.bytes.val = key → K (encodeManifest man)) :
    ((putRaw .groups g.bytes.val (encodeManifest man)).mapErr GroupError.storage).Safe handleAt (GroupEntry key K)
      fun _ => True := (pinned_putRaw trivial fun _ => hK).anyErr _

theorem entry_putMessage {g : GroupId} {id : GroupMessageId} {msg : GroupMessage}
    (hK : makeMsgKey g id = key → K (GroupMessage.codec.enc msg)) :
    ((putRaw .groups (makeMsgKey g id) (GroupMessage.codec.enc msg)).mapErr GroupError.storage).Safe handleAt
      (GroupEntry key K) fun _ => True := (pinned_putRaw trivial fun _ => hK).anyErr _

/-- The decision is taken on what the entry was, however long ago it was read. -/
theorem entry_updateManifest {g : GroupId} {d : GroupManifest → Except GroupError (Option GroupManifest)}
    (hd : g.bytes.val = key → ∀ v man man', K v → decodeManifest v = .ok man → d man = .ok (some man') →
      K (encodeManifest man')) : (updateManifest g d).Safe handleAt (GroupEntry key K) fun _ => True := by
  refine (entry_getManifest g).seq fun man hman => ?_
  cases hdec : d man with
  | error e => exact .ret trivial
  | ok o =>
    cases o with
    | none => exact .ret trivial
    | some man' =>
      refine entry_putManifest fun hg => ?_
      obtain ⟨v, hK, hv⟩ := hman hg
      exact hd hg v man man' hK hv hdec

theorem entry_processReceipt {r : GroupReceiptPayload}
    (hr : makeMsgKey r.groupId r.messageId = key → ∀ v msg, K v → decodeMessage v = .ok msg →
      K (GroupMessage.codec.enc { msg with status := r.status })) :
    (processReceipt r).Safe handleAt (GroupEntry key K) fun _ => True := by
  refine (entry_getRaw _).seq fun b hb => ?_
  cases b with
  | none => exact .ret trivial
  | some v =>
    change Safe _ _ _ (Prog.bind (lift (decodeMessage v)) _)
    cases hdec : decodeMessage v with
    | error e => exact .ret trivial
    | ok msg =>
      change Safe _ _ _ (if !isForwardTransition msg.status r.status then _ else _)
      split
      · exact .ret trivial
      · refine (entry_putMessage fun hkey => ?_).seq fun _ _ => .ret trivial
        obtain ⟨v', hv', hK⟩ := hb hkey
        cases hv'
        exact hr hkey v msg hK hdec

theorem entry_markStatus {g : GroupId} {id : GroupMessageId} {who : IdentityId} {machine : MachineId}
    {status : GroupMessageStatus} {now : UInt64}
    (h : makeMsgKey g id = key → ∀ v msg, K v → decodeMessage v = .ok msg →
      K (GroupMessage.codec.enc { msg with status })) :
    (markStatus g id who machine status now).Safe handleAt (GroupEntry key K) fun _ => True := by
  refine (entry_processReceipt (r := ⟨id, g, who, machine, status, now⟩) h).seq fun updated _ => ?_
  split
  · exact .ret trivial
  · exact .ret trivial

/-- A message that is there is not stored again. -/
theorem entry_receiveMessage (msg : GroupMessage) :
    (receiveMessage msg).Safe handleAt (GroupEntry key K) fun _ => True := by
  refine (entry_getManifest _).seq fun man _ => (entry_getRaw _).seq fun known hknown => ?_
  split
  · exact .ret trivial
  · next hnew =>
    refine (entry_putMessage fun hkey => ?_).seq fun _ _ => .ret trivial
    obtain ⟨v, hv, -⟩ := hknown hkey
    rw [hv] at hnew
    exact absurd rfl hnew

end Group

namespace Sdk

/-- A call that leaves a `K` where it found one, and puts nothing else in its
place. -/
def GroupCall.Respects (key : Bytes) (K : Bytes → Prop) : GroupCall → Prop
  | .createGroup _ _ g _ => g.bytes.val ≠ key
  | .persistManifest man => man.groupId.bytes.val ≠ key
  | .membership g c => g.bytes.val = key → ∀ v man man', K v → Group.decodeManifest v = .ok man →
      c.decision man = .ok (some man') → K (Group.encodeManifest man')
  | .sendMessage g _ _ _ id _ => Group.makeMsgKey g id ≠ key
  | .processReceipt r => Group.makeMsgKey r.groupId r.messageId = key → ∀ v msg, K v →
      Group.decodeMessage v = .ok msg → K (Group.GroupMessage.codec.enc { msg with status := r.status })
  | .markDelivered g id _ _ _ => Group.makeMsgKey g id = key → ∀ v msg, K v → Group.decodeMessage v = .ok msg →
      K (Group.GroupMessage.codec.enc { msg with status := .delivered })
  | .markRead g id _ _ _ => Group.makeMsgKey g id = key → ∀ v msg, K v → Group.decodeMessage v = .ok msg →
      K (Group.GroupMessage.codec.enc { msg with status := .read })
  | _ => True

theorem GroupCall.entry {key : Bytes} {K : Bytes → Prop} {c : GroupCall} (hc : c.Respects key K) :
    c.prog.Safe handleAt (GroupEntry key K) fun _ => True := by
  cases c with
  | createGroup label founders g ts =>
    refine Safe.anyErr (Q := fun _ => True) ?_ _
    unfold Group.createGroup
    split
    · exact .ret trivial
    · exact (Group.entry_putManifest fun hg => absurd hg hc).seq fun _ _ => .ret trivial
  | persistManifest man => exact (Group.entry_putManifest fun hg => absurd hg hc).anyErr _
  | membership g c =>
    refine Safe.anyErr (Q := fun _ => True) ?_ _
    rw [c.prog_eq]
    exact Group.entry_updateManifest hc
  | getManifest g => exact (Group.entry_getManifest g).anyErr _
  | loadManifest g =>
    refine Safe.anyErr (Q := fun _ => True) ((Group.entry_getRaw _).seq fun b _ => ?_) _
    cases b with
    | none => exact .ret trivial
    | some v => exact (Safe.ret (Q := fun _ => True) trivial).seq fun _ _ => .ret trivial
  | sendMessage g sender machine text id ts =>
    refine Safe.anyErr (Q := fun _ => True) ((Group.entry_getManifest g).seq fun man _ => ?_) _
    split
    · exact .ret trivial
    · exact (Group.entry_putMessage fun hkey => absurd hkey hc).seq fun _ _ => .ret trivial
  | receiveMessage msg => exact (Group.entry_receiveMessage msg).anyErr _
  | getMessage g id =>
    refine Safe.anyErr (Q := fun _ => True) ((Group.entry_getRaw _).seq fun b _ => ?_) _
    cases b with
    | none => exact .ret trivial
    | some v => exact (Safe.ret (Q := fun _ => True) trivial).seq fun _ _ => .ret trivial
  | listMessages g before limit =>
    refine Safe.anyErr (Q := fun _ => True) ((pinned_iteratorCf (E := fun _ => True)).seq fun items _ => ?_) _
    exact (Safe.ret (Q := fun _ => True) trivial).seq fun _ _ => .ret trivial
  | processReceipt r => exact (Group.entry_processReceipt hc).anyErr _
  | markDelivered g id who machine now => exact (Group.entry_markStatus hc).anyErr _
  | markRead g id who machine now => exact (Group.entry_markStatus hc).anyErr _

theorem Call.entry (blake3 : Bytes → Arr 32) {key : Bytes} {K : Bytes → Prop} {c : Call}
    (hc : ∀ c', c = .group c' → c'.Respects key K) : (c.prog blake3).Safe handleAt (GroupEntry key K) fun _ => True := by
  have other : (∀ c', c ≠ .group c') → (c.prog blake3).Safe handleAt (GroupEntry key K) fun _ => True := by
    intro hother
    refine pinned_of_within (c.within blake3) ?_ ((c.within blake3).safe fun _ _ _ _ _ _ _ _ _ => trivial)
    cases c with
    | group c => exact absurd rfl (hother c)
    | dm c => cases c <;> simp [Call.touches, DmCall.touches]
    | _ => simp [Call.touches]
  cases c with
  | group c => exact GroupCall.entry (hc c rfl)
  | _ => exact other fun _ h => by cases h

/-! ## The manifest of a group -/

/-- The value is a manifest with `J`. -/
def ManifestIs (J : Group.GroupManifest → Prop) (v : Bytes) : Prop := ∃ man, Group.decodeManifest v = .ok man ∧ J man

theorem groupEntry_iff {g : Group.GroupId} {J : Group.GroupManifest → Prop} {db : ZeroDb} :
    GroupEntry g.bytes.val (ManifestIs J) db ↔ ∃ man, Group.manifestAt db g = .ok man ∧ J man := by
  constructor
  · intro h
    obtain ⟨v, hv, man, hdec, hJ⟩ := h.held
    exact ⟨man, Group.manifestAt_eq_ok.mpr ⟨v, hv, hdec⟩, hJ⟩
  · rintro ⟨man, hman, hJ⟩
    obtain ⟨v, hv, hdec⟩ := Group.manifestAt_eq_ok.mp hman
    exact ⟨fun _ _ _ _ => trivial, v, hv, man, hdec, hJ⟩

/-- A call that is allowed on the manifest of `g`: no other manifest is put in
its place, and each membership call is an `A`. -/
def Call.OnGroup (g : Group.GroupId) (A : Group.Call → Prop) : Call → Prop
  | .group (.createGroup _ _ g' _) => g' ≠ g
  | .group (.persistManifest man) => man.groupId ≠ g
  | .group (.membership g' c) => g' = g → A c
  | _ => True

theorem Call.OnGroup.respects {g : Group.GroupId} {A : Group.Call → Prop} {J : Group.GroupManifest → Prop} {c : Call}
    (hc : c.OnGroup g A) (hJ : ∀ c man man', A c → J man → c.decision man = .ok (some man') → J man') (c' : GroupCall)
    (hc' : c = .group c') : c'.Respects g.bytes.val (ManifestIs J) := by
  subst hc'
  cases c' with
  | createGroup label founders g' ts => exact fun hkey => hc (Group.GroupId.key_inj.mp hkey)
  | persistManifest man => exact fun hkey => hc (Group.GroupId.key_inj.mp hkey)
  | membership g' c =>
    intro hkey v man man' hv hdec hd
    obtain ⟨man₁, hdec₁, hJ₁⟩ := hv
    rw [hdec] at hdec₁
    cases hdec₁
    exact ⟨man', Group.decodeManifest_encodeManifest man', hJ c man man' (hc (Group.GroupId.key_inj.mp hkey)) hJ₁ hd⟩
  | sendMessage g' sender machine text id ts => exact fun hkey => Group.groupKey_ne _ _ _ hkey.symm
  | processReceipt r => exact fun hkey => absurd hkey.symm (Group.groupKey_ne _ _ _)
  | markDelivered g' id who machine now | markRead g' id who machine now =>
    exact fun hkey => absurd hkey.symm (Group.groupKey_ne _ _ _)
  | _ => trivial

/-! ### Clients -/

section Clients
variable {ι ε α : Type} [DecidableEq ι] {clients : ι → Client ε α} {db : ZeroDb}

theorem governed_run (blake3 : Bytes → Arr 32) {g : Group.GroupId} {A : Group.Call → Prop}
    {J : Group.GroupManifest → Prop} {man : Group.GroupManifest} (hman : Group.manifestAt db g = .ok man) (hman' : J man)
    (hJ : ∀ c man man', A c → J man → c.decision man = .ok (some man') → J man')
    (hclients : ∀ i, (clients i).Makes (Call.OnGroup g A)) (sched : List (ι × Option Fault)) :
    ∃ man', Group.manifestAt (runClients blake3 db clients sched).state g = .ok man' ∧ J man' :=
  groupEntry_iff.mp (kept_run blake3 (groupEntry_iff.mpr ⟨man, hman, hman'⟩)
    (fun _ hc => Call.entry blake3 (hc.respects hJ)) hclients sched)

/-- **Privileges stay contained under concurrency.** Any clients of all
services on one store, in any schedule and with any failures: as long as no
other manifest is put in the place of group `g`'s and nobody who is an Owner
of `g` makes a membership call on it, its Owners and its Admins stay the same,
though calls that overlap may undo each other. -/
theorem privileges_contained (blake3 : Bytes → Arr 32) {g : Group.GroupId} {man : Group.GroupManifest}
    (hman : Group.manifestAt db g = .ok man) (hd : Group.Distinct man.members.val)
    (hclients : ∀ i, (clients i).Makes (Call.OnGroup g fun c => c.caller ∉ Group.withRole man.members.val .owner))
    (sched : List (ι × Option Fault)) :
    ∃ man', Group.manifestAt (runClients blake3 db clients sched).state g = .ok man' ∧
      Group.withRole man'.members.val .owner = Group.withRole man.members.val .owner ∧
      Group.withRole man'.members.val .admin = Group.withRole man.members.val .admin := by
  let J : Group.GroupManifest → Prop := fun man' =>
    Group.Distinct man'.members.val ∧ Group.SameUpper man.members.val man'.members.val
  obtain ⟨man', hman', -, hsame⟩ := governed_run blake3 (J := J) hman ⟨hd, fun _ _ => rfl⟩
    (fun c man₁ man₂ hcaller hJ hdec => by
      -- whenever the caller read it, the manifest had the Owners of the start
      rw [← hJ.2 .owner (.inl rfl)] at hcaller
      obtain ⟨hd', hs⟩ := Group.decision_sameUpper hJ.1 hcaller hdec
      exact ⟨hd', hJ.2.trans hs⟩) hclients sched
  exact ⟨man', hman', hsame .owner (.inl rfl), hsame .admin (.inr rfl)⟩

/-- **Members nobody acts on stay.** Any clients of all services on one store,
in any schedule and with any failures: as long as no other manifest is put in
its place, a well-formed manifest of `g` stays well formed with its header
unchanged, and the members no membership call on `g` is about keep their
entry, and so their role. -/
theorem members_spared (blake3 : Bytes → Arr 32) {g : Group.GroupId} {man : Group.GroupManifest}
    (hman : Group.manifestAt db g = .ok man) (hwf : Group.WellFormed g man) {spared : Set IdentityId}
    (hclients : ∀ i, (clients i).Makes (Call.OnGroup g fun c => c.subject ∉ spared))
    (sched : List (ι × Option Fault)) :
    ∃ man', Group.manifestAt (runClients blake3 db clients sched).state g = .ok man' ∧ Group.WellFormed g man' ∧
      Group.SameHeader man man' ∧ ∀ m ∈ man.members.val, m.identityId ∈ spared → m ∈ man'.members.val := by
  let J : Group.GroupManifest → Prop := fun man' => Group.WellFormed g man' ∧ Group.SameHeader man man' ∧
    ∀ m ∈ man.members.val, m.identityId ∈ spared → m ∈ man'.members.val
  refine governed_run blake3 (J := J) hman ⟨hwf, .rfl', fun m hm _ => hm⟩
    (fun c man₁ man₂ hsubject hJ hdec => ?_) hclients sched
  obtain ⟨hwf₁, hheader, hkept⟩ := hJ
  obtain ⟨hwf₂, hheader', -, heffect⟩ := Group.decision_effect hwf₁ hdec
  refine ⟨hwf₂, hheader.trans hheader', fun m hm hspared => ?_⟩
  have hm₁ := hkept m hm hspared
  have hne : m.identityId ≠ c.subject := fun heq => hsubject (heq ▸ hspared)
  cases c with
  | addMember caller new addedAt now => exact (heffect.2 m).mpr (.inl hm₁)
  | removeMember caller target now => exact (heffect.2 m).mpr ⟨hm₁, hne⟩
  | promote caller target role now | demote caller target role now =>
    obtain ⟨old, -, -, -, hiff⟩ := heffect
    exact (hiff m).mpr (.inl ⟨hm₁, hne⟩)

/-- The Admin removes the Member on one device, and on another makes the
Member a Moderator and adds somebody. -/
def governors : Bool → Client Unit Unit := fun i =>
  let g : Group.GroupId := ⟨Arr.fill 16 9⟩
  .calls (if i then [.group (.membership g (.removeMember ⟨Arr.fill 16 2⟩ ⟨Arr.fill 16 3⟩ 6))]
    else [.group (.membership g (.promote ⟨Arr.fill 16 2⟩ ⟨Arr.fill 16 3⟩ .moderator 6)),
      .group (.membership g (.addMember ⟨Arr.fill 16 2⟩ ⟨Arr.fill 16 4⟩ 7 7))])

theorem governors_on {A : Group.Call → Prop}
    (hA : ∀ c ∈ [Group.Call.removeMember ⟨Arr.fill 16 2⟩ ⟨Arr.fill 16 3⟩ 6,
      .promote ⟨Arr.fill 16 2⟩ ⟨Arr.fill 16 3⟩ .moderator 6, .addMember ⟨Arr.fill 16 2⟩ ⟨Arr.fill 16 4⟩ 7 7], A c)
    (i : Bool) : (governors i).Makes (Call.OnGroup ⟨Arr.fill 16 9⟩ A) := by
  refine Client.makes_calls fun c hc => ?_
  cases i with
  | true =>
    rw [List.mem_singleton.mp hc]
    exact fun _ => hA _ List.mem_cons_self
  | false =>
    rcases List.mem_cons.mp hc with rfl | hc
    · exact fun _ => hA _ (List.mem_cons_of_mem _ List.mem_cons_self)
    · rw [List.mem_singleton.mp hc]
      exact fun _ => hA _ (List.mem_cons_of_mem _ (List.mem_cons_of_mem _ List.mem_cons_self))

def trioDb : ZeroDb :=
  ZeroDb.empty.put .groups (⟨Arr.fill 16 9⟩ : Group.GroupId).bytes.val
    (Group.encodeManifest (Group.trio ⟨Arr.fill 16 9⟩))

/-- Both devices have read the manifest before either writes it. -/
theorem privileges_contained_trio :
    let blake3 : Bytes → Arr 32 := fun _ => Arr.fill 32 9
    let g : Group.GroupId := ⟨Arr.fill 16 9⟩
    let next := (none : Option Fault)
    let sched := [(true, next), (false, next), (true, next), (false, next), (false, next), (false, next)]
    ∃ man', Group.manifestAt (runClients blake3 trioDb governors sched).state g = .ok man' ∧
      Group.withRole man'.members.val .owner = Group.withRole (Group.trio g).members.val .owner ∧
      Group.withRole man'.members.val .admin = Group.withRole (Group.trio g).members.val .admin := by
  intro blake3 g next sched
  refine privileges_contained blake3 (Group.manifestAt_put_self _ _ _) (by decide) (governors_on fun c hc => ?_) sched
  have hcaller : ∀ c ∈ [Group.Call.removeMember ⟨Arr.fill 16 2⟩ ⟨Arr.fill 16 3⟩ 6,
      .promote ⟨Arr.fill 16 2⟩ ⟨Arr.fill 16 3⟩ .moderator 6, .addMember ⟨Arr.fill 16 2⟩ ⟨Arr.fill 16 4⟩ 7 7],
      c.caller ∉ Group.withRole (Group.trio g).members.val .owner := by decide
  exact hcaller c hc

/-- The Owner and the Admin keep their entries. -/
theorem members_spared_trio :
    let blake3 : Bytes → Arr 32 := fun _ => Arr.fill 32 9
    let g : Group.GroupId := ⟨Arr.fill 16 9⟩
    let next := (none : Option Fault)
    let sched := [(true, next), (false, next), (true, next), (false, next), (false, next), (false, next)]
    ∃ man', Group.manifestAt (runClients blake3 trioDb governors sched).state g = .ok man' ∧
      Group.WellFormed g man' ∧ Group.SameHeader (Group.trio g) man' ∧
      ∀ m ∈ (Group.trio g).members.val, m.identityId ∈ ({⟨Arr.fill 16 1⟩, ⟨Arr.fill 16 2⟩} : Set IdentityId) →
        m ∈ man'.members.val := by
  intro blake3 g next sched
  have hwf : Group.WellFormed g (Group.trio g) := ⟨by decide, by decide, rfl⟩
  refine members_spared blake3 (Group.manifestAt_put_self _ _ _) hwf (governors_on fun c hc => ?_) sched
  have hsubject : ∀ c ∈ [Group.Call.removeMember ⟨Arr.fill 16 2⟩ ⟨Arr.fill 16 3⟩ 6,
      .promote ⟨Arr.fill 16 2⟩ ⟨Arr.fill 16 3⟩ .moderator 6, .addMember ⟨Arr.fill 16 2⟩ ⟨Arr.fill 16 4⟩ 7 7],
      c.subject ≠ ⟨Arr.fill 16 1⟩ ∧ c.subject ≠ ⟨Arr.fill 16 2⟩ := by decide
  rintro (h | h)
  · exact (hsubject c hc).1 h
  · exact (hsubject c hc).2 h

end Clients

end Sdk

end ZeroSdk
