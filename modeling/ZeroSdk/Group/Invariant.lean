/-
The manifest invariant and the exact effect of the membership calls: over
any run of calls on any groups, a well-formed manifest stays well formed,
keeps its header, and moves by one epoch and one member at a time
(`membership_run`). A call that fails changes nothing at all.

`decision_effect` is the one-call part, on the manifest alone;
`step_effect` lifts it to the store, with the frame over every other key.
-/
import ZeroSdk.Group.Membership

namespace ZeroSdk.Group

/-- A manifest as stored under the key `g`: members strictly ascending by
identity, at most `MAX_GROUP_SIZE` of them. -/
structure WellFormed (g : GroupId) (man : GroupManifest) : Prop where
  ascending : man.members.val.Pairwise fun a b => a.identityId.bytes < b.identityId.bytes
  size : man.members.val.length ≤ maxGroupSize
  key : man.groupId = g

/-- The fields no membership call changes. -/
structure SameHeader (man man' : GroupManifest) : Prop where
  groupId : man'.groupId = man.groupId
  name : man'.name = man.name
  creator : man'.creator = man.creator
  createdAtMs : man'.createdAtMs = man.createdAtMs
  mlsStateBlob : man'.mlsStateBlob = man.mlsStateBlob

theorem SameHeader.rfl' {man : GroupManifest} : SameHeader man man := ⟨rfl, rfl, rfl, rfl, rfl⟩

theorem SameHeader.trans {a b c : GroupManifest} (h : SameHeader a b) (h' : SameHeader b c) : SameHeader a c :=
  ⟨h'.1.trans h.1, h'.2.trans h.2, h'.3.trans h.3, h'.4.trans h.4, h'.5.trans h.5⟩

/-- What a call does to the members: it adds, removes or re-roles the one it
names, and every other entry is in `man'` exactly when it was in `man`. -/
def Call.Effect : Call → GroupManifest → GroupManifest → Prop
  | .addMember _ new addedAt _, man, man' =>
    (∀ m ∈ man.members.val, m.identityId ≠ new) ∧
    ∀ m, m ∈ man'.members.val ↔ m ∈ man.members.val ∨ m = ⟨new, ⟨Arr.fill 16 0⟩, .member, addedAt⟩
  | .removeMember _ target _, man, man' =>
    (∃ m ∈ man.members.val, m.identityId = target) ∧
    ∀ m, m ∈ man'.members.val ↔ m ∈ man.members.val ∧ m.identityId ≠ target
  | .promote _ target role _, man, man' | .demote _ target role _, man, man' =>
    ∃ old ∈ man.members.val, old.identityId = target ∧ old.role ≠ role ∧
      ∀ m, m ∈ man'.members.val ↔ m ∈ man.members.val ∧ m.identityId ≠ target ∨ m = { old with role }

/-- The call adds somebody who is a member already. -/
def Call.AddsExisting (c : Call) (man : GroupManifest) : Prop :=
  ∃ caller new addedAt now, c = .addMember caller new addedAt now ∧ ∃ m ∈ man.members.val, m.identityId = new

/-! ## One decision -/

theorem WellFormed.distinct {g : GroupId} {man : GroupManifest} (h : WellFormed g man) :
    Distinct man.members.val := by
  rw [Distinct, List.Nodup, List.pairwise_map]
  exact h.ascending.imp fun {a b} hab heq => absurd hab (by rw [heq]; exact lt_irrefl _)

/-- Sorted distinct members are strictly ascending. -/
theorem ascending_of_distinct {l : List GroupMember} (hsorted : l.Pairwise idLe) (hd : Distinct l) :
    l.Pairwise fun a b => a.identityId.bytes < b.identityId.bytes := by
  refine (hsorted.and (List.pairwise_map.mp hd)).imp fun {a b} h => lt_of_le_of_ne h.1 fun heq => h.2 ?_
  cases ha : a.identityId; cases hb : b.identityId; simp_all

theorem nextEpoch_wellFormed {g : GroupId} {man : GroupManifest} {now : UInt64} (hd : Distinct man.members.val)
    (hs : man.members.val.length ≤ maxGroupSize) (hk : man.groupId = g) : WellFormed g (nextEpoch man now) where
  ascending := ascending_of_distinct (List.pairwise_insertionSort idLe _) (nextEpoch_distinct.mpr hd)
  size := by rw [(nextEpoch_perm man now).length_eq]; exact hs
  key := hk

theorem changeRole_effect {refused : Role → Role → Bool} {actionFor : Role → Role → GroupAction}
    {caller target : IdentityId} {newRole : Role} {now : UInt64} {g : GroupId} {man man' : GroupManifest}
    (hself : ∀ r, refused r r = true) (hwf : WellFormed g man)
    (h : changeRole refused actionFor caller target newRole now man = .ok (some man')) :
    WellFormed g man' ∧ SameHeader man man' ∧ man'.mlsEpoch = man.mlsEpoch + 1 ∧
      ∃ old ∈ man.members.val, old.identityId = target ∧ old.role ≠ newRole ∧
        ∀ m, m ∈ man'.members.val ↔ m ∈ man.members.val ∧ m.identityId ≠ target ∨ m = { old with role := newRole } := by
  obtain ⟨cm, tm, ms, -, htm, href, -, hms, hr⟩ := changeRole_some h
  obtain ⟨hmem, rfl⟩ := findMember_some htm
  cases hr
  refine ⟨nextEpoch_wellFormed ?_ ?_ hwf.key, ⟨rfl, rfl, rfl, rfl, rfl⟩, rfl, tm, hmem, rfl, ?_, fun m => ?_⟩
  · rw [hms, Distinct, map_id_setRole]; exact hwf.distinct
  · rw [hms, setRole_length]; exact hwf.size
  · rintro rfl; rw [hself] at href; cases href
  · rw [mem_nextEpoch, hms, mem_setRole hwf.distinct hmem]

theorem decision_effect {c : Call} {g : GroupId} {man man' : GroupManifest} (hwf : WellFormed g man)
    (h : c.decision man = .ok (some man')) :
    WellFormed g man' ∧ SameHeader man man' ∧ man'.mlsEpoch = man.mlsEpoch + 1 ∧ c.Effect man man' := by
  cases c with
  | addMember caller new addedAt now =>
    obtain ⟨cm, ms, -, -, hnew, hroom, hms, rfl⟩ := addMemberIn_some h
    refine ⟨nextEpoch_wellFormed ?_ ?_ hwf.key, ⟨rfl, rfl, rfl, rfl, rfl⟩, rfl, hnew, fun m => ?_⟩
    · rw [hms, Distinct, List.map_append, List.nodup_append]
      refine ⟨hwf.distinct, by simp, fun i hi j hj => ?_⟩
      obtain ⟨m, hm, rfl⟩ := List.mem_map.mp hi
      simp only [List.map_cons, List.map_nil, List.mem_singleton] at hj
      exact hj ▸ hnew m hm
    · rw [hms, List.length_append, List.length_singleton]; exact hroom
    · rw [mem_nextEpoch, hms, List.mem_append, List.mem_singleton]
  | removeMember caller target now =>
    obtain ⟨cm, tm, -, htm, -, -, hr⟩ := removeMemberIn_some h
    obtain ⟨hmem, hid⟩ := findMember_some htm
    cases hr
    refine ⟨nextEpoch_wellFormed ?_ ?_ hwf.key, ⟨rfl, rfl, rfl, rfl, rfl⟩, rfl, ⟨tm, hmem, hid⟩, fun m => ?_⟩
    · exact hwf.distinct.sublist (List.filter_sublist.map _)
    · exact Nat.le_trans (List.length_filter_le _ _) hwf.size
    · rw [mem_nextEpoch]
      simp [Vec.retain, List.mem_filter]
  | promote caller target role now =>
    simp only [Call.decision, promoteIn] at h
    exact changeRole_effect (fun r => by simp) hwf h
  | demote caller target role now =>
    simp only [Call.decision, demoteIn] at h
    exact changeRole_effect (fun r => by simp) hwf h

theorem decision_none {c : Call} {man : GroupManifest} (h : c.decision man = .ok none) : c.AddsExisting man := by
  cases c with
  | addMember caller new addedAt now => exact ⟨_, _, _, _, rfl, addMemberIn_none h⟩
  | removeMember caller target now =>
    obtain ⟨_, _, -, -, -, -, hr⟩ := removeMemberIn_some h
    cases hr
  | promote caller target role now =>
    simp only [Call.decision, promoteIn] at h
    obtain ⟨_, _, _, -, -, -, -, -, hr⟩ := changeRole_some h
    cases hr
  | demote caller target role now =>
    simp only [Call.decision, demoteIn] at h
    obtain ⟨_, _, _, -, -, -, -, -, hr⟩ := changeRole_some h
    cases hr

theorem Call.AddsExisting.not_some {c : Call} {man man' : GroupManifest} (hc : c.AddsExisting man) :
    c.decision man ≠ .ok (some man') := by
  obtain ⟨caller, new, addedAt, now, rfl, m, hm, hid⟩ := hc
  intro h
  obtain ⟨_, _, -, -, hnew, -, -, -⟩ := addMemberIn_some h
  exact hnew m hm hid

/-! ## One call on the store -/

/-- What one call does: `r` is its result, `db` and `db'` the store before
and after, `man` the manifest of `g` before. -/
structure CallEffect (g : GroupId) (c : GroupId × Call) (man : GroupManifest) (db : ZeroDb)
    (r : Except GroupError Unit) (db' : ZeroDb) : Prop where
  /-- A failed call leaves the whole store unchanged. -/
  failed : ∀ e, r = .error e → db' = db
  /-- So does adding an existing member, of whatever group. -/
  existing : ∀ man', manifestAt db c.1 = .ok man' → c.2.AddsExisting man' → db' = db
  /-- A call writes the manifest of its own group and nothing else. -/
  frame : ∀ cf key, (cf = .groups → key ≠ c.1.bytes.val) → db'.get cf key = db.get cf key
  /-- A call on another group leaves this one's manifest. -/
  other : c.1 ≠ g → manifestAt db' g = .ok man
  /-- Any other call that succeeds moves to the next epoch and changes the
  member it names. -/
  effective : c.1 = g → r = .ok () → ¬ c.2.AddsExisting man →
    ∃ man', manifestAt db' g = .ok man' ∧ man'.mlsEpoch.toNat = man.mlsEpoch.toNat + 1 ∧ c.2.Effect man man'

/-- The manifest a call leaves: well formed, with the same header, at most
one epoch on. -/
def Follows (g : GroupId) (man man' : GroupManifest) (n : Nat) : Prop :=
  WellFormed g man' ∧ SameHeader man man' ∧ man'.mlsEpoch.toNat ≤ man.mlsEpoch.toNat + n

theorem CallEffect.unchanged {db : ZeroDb} {g : GroupId} {man : GroupManifest} {c : GroupId × Call}
    {r : Except GroupError Unit} (hman : manifestAt db g = .ok man)
    (hr : c.1 = g → r = .ok () → c.2.AddsExisting man) : CallEffect g c man db r db :=
  ⟨fun _ _ => rfl, fun _ _ _ => rfl, fun _ _ _ => rfl, fun _ => hman, fun hg hok hne => absurd (hr hg hok) hne⟩

theorem step_effect {db : ZeroDb} {g : GroupId} {man : GroupManifest} (hman : manifestAt db g = .ok man)
    (hwf : WellFormed g man) (hepoch : man.mlsEpoch.toNat + 1 < 2 ^ 64) (c : GroupId × Call) :
    CallEffect g c man db (db.run (c.2.prog c.1)).1 (db.run (c.2.prog c.1)).2 ∧
      ∃ man', manifestAt (db.run (c.2.prog c.1)).2 g = .ok man' ∧ Follows g man man' 1 := by
  obtain ⟨g', c⟩ := c
  have keep : Follows g man man 1 := ⟨hwf, .rfl', Nat.le_succ _⟩
  rw [Call.prog_eq]
  rcases updateManifest_cases (Prod.mk.eta (p := db.run (updateManifest g' c.decision))).symm with
    ⟨e, hr, hdb⟩ | ⟨man₁, hman₁, hdec, hr, hdb⟩ | ⟨man₁, man₂, hman₁, hdec, hr, hdb⟩
  · rw [hdb, hr]
    exact ⟨.unchanged hman fun _ h => (by cases h), man, hman, keep⟩
  · rw [hdb, hr]
    refine ⟨.unchanged hman fun hg _ => ?_, man, hman, keep⟩
    simp only at hg
    subst hg
    rw [hman] at hman₁
    cases hman₁
    exact decision_none hdec
  · have frame : ∀ cf key, (cf = .groups → key ≠ g'.bytes.val) →
        (db.put .groups g'.bytes.val (encodeManifest man₂)).get cf key = db.get cf key := by
      intro cf key hne
      rw [ZeroDb.get_put, if_neg]
      rintro ⟨rfl, hk⟩
      exact hne rfl hk
    have existing : ∀ man', manifestAt db g' = .ok man' → c.AddsExisting man' →
        db.put .groups g'.bytes.val (encodeManifest man₂) = db := by
      intro man' hman' hex
      rw [hman₁] at hman'
      cases hman'
      exact absurd hdec hex.not_some
    rw [hdb, hr]
    by_cases hg : g' = g
    · subst hg
      rw [hman] at hman₁
      cases hman₁
      obtain ⟨hwf₂, hh, he, heff⟩ := decision_effect hwf hdec
      have hput := manifestAt_put_self db g' man₂
      have he' : man₂.mlsEpoch.toNat = man.mlsEpoch.toNat + 1 := by
        rw [he, UInt64.toNat_add]
        exact Nat.mod_eq_of_lt hepoch
      exact ⟨⟨fun _ h => (by cases h), existing, frame, fun h => absurd rfl h, fun _ _ _ => ⟨man₂, hput, he', heff⟩⟩,
        man₂, hput, hwf₂, hh, he'.le⟩
    · have hput : manifestAt (db.put .groups g'.bytes.val (encodeManifest man₂)) g = .ok man := by
        rw [manifestAt_put, if_neg (Ne.symm hg), hman]
      exact ⟨⟨fun _ h => (by cases h), existing, frame, fun _ => hput, fun h => absurd h hg⟩, man, hput, keep⟩

/-! ## Runs -/

theorem run_follows {db : ZeroDb} {g : GroupId} {man : GroupManifest} (hman : manifestAt db g = .ok man)
    (hwf : WellFormed g man) (calls : List (GroupId × Call)) (hn : man.mlsEpoch.toNat + calls.length < 2 ^ 64) :
    ∃ man', manifestAt (runCalls db calls) g = .ok man' ∧ Follows g man man' calls.length := by
  induction calls generalizing db man with
  | nil => exact ⟨man, hman, hwf, .rfl', Nat.le_refl _⟩
  | cons c calls ih =>
    rw [List.length_cons] at hn
    obtain ⟨-, man₁, hman₁, hwf₁, hh₁, he₁⟩ := step_effect hman hwf (by omega) c
    obtain ⟨man', hman', hwf', hh', he'⟩ := ih hman₁ hwf₁ (by omega)
    exact ⟨man', hman', hwf', hh₁.trans hh', by rw [List.length_cons]; omega⟩

/-- **Manifest invariant and exact effect.** Along any sequence of membership
calls on any groups, too short to wrap the epoch counter, a well-formed
manifest stays well formed and keeps its header; and at every call of the
sequence the effect on the store is the one `CallEffect` states. -/
theorem membership_run {db : ZeroDb} {g : GroupId} {man : GroupManifest} (hman : manifestAt db g = .ok man)
    (hwf : WellFormed g man) (calls : List (GroupId × Call)) (hn : calls.length < 2 ^ 64 - man.mlsEpoch.toNat) :
    (∃ man', manifestAt (runCalls db calls) g = .ok man' ∧ WellFormed g man' ∧ SameHeader man man') ∧
    ∀ pre c post, calls = pre ++ c :: post →
      ∃ man₁, manifestAt (runCalls db pre) g = .ok man₁ ∧ WellFormed g man₁ ∧ SameHeader man man₁ ∧
        CallEffect g c man₁ (runCalls db pre) ((runCalls db pre).run (c.2.prog c.1)).1
          (runCalls db (pre ++ [c])) := by
  constructor
  · obtain ⟨man', hman', hwf', hh, -⟩ := run_follows hman hwf calls (by omega)
    exact ⟨man', hman', hwf', hh⟩
  · rintro pre c post rfl
    rw [List.length_append, List.length_cons] at hn
    obtain ⟨man₁, hman₁, hwf₁, hh₁, he₁⟩ := run_follows hman hwf pre (by omega)
    have hlast : runCalls db (pre ++ [c]) = ((runCalls db pre).run (c.2.prog c.1)).2 := by
      rw [runCalls, List.foldl_append]
      rfl
    rw [hlast]
    exact ⟨man₁, hman₁, hwf₁, hh₁, (step_effect hman₁ hwf₁ (by omega) c).1⟩

/-- A group of one Owner, `id(1)`. -/
def solo (g : GroupId) : GroupManifest where
  groupId := g
  name := Str.empty
  creator := ⟨Arr.fill 16 1⟩
  members := Vec.singleton ⟨⟨Arr.fill 16 1⟩, ⟨Arr.fill 16 0⟩, .owner, 5⟩
  mlsEpoch := 3
  mlsStateBlob := Vec.empty
  createdAtMs := 5
  updatedAtMs := 5

/-- The Owner adds `id(2)`, which takes effect once, and promotes it. -/
theorem membership_run_solo :
    let g : GroupId := ⟨Arr.fill 16 9⟩
    let db := ZeroDb.empty.put .groups g.bytes.val (encodeManifest (solo g))
    let adds := Call.addMember ⟨Arr.fill 16 1⟩ ⟨Arr.fill 16 2⟩ 6 6
    let again := Call.addMember ⟨Arr.fill 16 1⟩ ⟨Arr.fill 16 2⟩ 7 7
    let promotes := Call.promote ⟨Arr.fill 16 1⟩ ⟨Arr.fill 16 2⟩ .admin 8
    (∃ man', manifestAt (runCalls db [(g, adds), (g, again), (g, promotes)]) g = .ok man' ∧ WellFormed g man' ∧
      SameHeader (solo g) man') ∧
    ((db.run (adds.prog g)).1 = .ok () ∧
      ∃ man', manifestAt (runCalls db [(g, adds)]) g = .ok man' ∧ man'.mlsEpoch.toNat = 4 ∧ adds.Effect (solo g) man') ∧
    runCalls db [(g, adds), (g, again)] = runCalls db [(g, adds)] ∧
    (((runCalls db [(g, adds), (g, again)]).run (promotes.prog g)).1 = .ok () ∧
      ∃ man man', manifestAt (runCalls db [(g, adds), (g, again)]) g = .ok man ∧
        manifestAt (runCalls db [(g, adds), (g, again), (g, promotes)]) g = .ok man' ∧
        man'.mlsEpoch.toNat = man.mlsEpoch.toNat + 1 ∧ promotes.Effect man man') := by
  intro g db adds again promotes
  have hman : manifestAt db g = .ok (solo g) := manifestAt_put_self _ _ _
  have hwf : WellFormed g (solo g) := ⟨by decide, by decide, rfl⟩
  have hn : [(g, adds), (g, again), (g, promotes)].length < 2 ^ 64 - (solo g).mlsEpoch.toNat := by
    change 3 < 2 ^ 64 - 3
    omega
  obtain ⟨hrun, hcalls⟩ := membership_run hman hwf [(g, adds), (g, again), (g, promotes)] hn
  obtain ⟨man, hstart, -, -, hadds⟩ := hcalls [] (g, adds) _ rfl
  obtain rfl : man = solo g := Except.ok.inj (hstart.symm.trans hman)
  have hadds_ok : (db.run (adds.prog g)).1 = .ok () := by decide +kernel
  have hnew : ¬ adds.AddsExisting (solo g) := by
    rintro ⟨caller, new, addedAt, now, heq, m, hm, hid⟩
    injection heq with hcaller hid'
    rw [← hid', List.mem_singleton.mp hm] at hid
    exact absurd hid (by decide)
  obtain ⟨man₁, hman₁, hepoch, heffect⟩ := hadds.effective rfl hadds_ok hnew
  obtain ⟨_, -, -, -, hagain⟩ := hcalls [(g, adds)] (g, again) _ rfl
  have hold : again.AddsExisting man₁ := ⟨_, _, _, _, rfl, _, (heffect.2 _).mpr (.inr rfl), rfl⟩
  obtain ⟨man₂, hman₂, -, -, hpromotes⟩ := hcalls [(g, adds), (g, again)] (g, promotes) [] rfl
  have hpromotes_ok : ((runCalls db [(g, adds), (g, again)]).run (promotes.prog g)).1 = .ok () := by decide +kernel
  have hnot : ¬ promotes.AddsExisting man₂ := by
    rintro ⟨caller, new, addedAt, now, heq, -⟩
    injection heq
  obtain ⟨man₃, hman₃, hepoch', heffect'⟩ := hpromotes.effective rfl hpromotes_ok hnot
  exact ⟨hrun, ⟨hadds_ok, man₁, hman₁, hepoch, heffect⟩, hagain.existing man₁ hman₁ hold,
    hpromotes_ok, man₂, man₃, hman₂, hman₃, hepoch', heffect'⟩

end ZeroSdk.Group
