/-
Who holds the two upper roles is decided by Owners alone: over any sequence
of membership calls none of whose callers is an Owner, the Owners and the
Admins stay the same people (`privilege_containment`).

The rule is spread over the permission table, the rank comparison of
`remove_member` and the two ways `promote` and `demote` pick an action;
`remove_lower`, `promote_lower` and `demote_lower` are what they come to
for a caller who is not an Owner. Callers stay non-Owners along the run
because the set of Owners does not change.
-/
import Mathlib.Data.Set.Basic
import ZeroSdk.Group.Membership

namespace ZeroSdk.Group

/-- The identities holding role `r`. -/
def withRole (l : List GroupMember) (r : Role) : Set IdentityId := { i | ∃ m ∈ l, m.identityId = i ∧ m.role = r }

instance (l : List GroupMember) (r : Role) (i : IdentityId) : Decidable (i ∈ withRole l r) :=
  inferInstanceAs (Decidable (∃ m ∈ l, m.identityId = i ∧ m.role = r))

/-- Owner or Admin. -/
def Role.Upper (r : Role) : Prop := r = .owner ∨ r = .admin

/-- The upper roles are held by the same identities. -/
def SameUpper (l l' : List GroupMember) : Prop := ∀ r, r.Upper → withRole l' r = withRole l r

theorem SameUpper.trans {l₁ l₂ l₃ : List GroupMember} (h₁ : SameUpper l₁ l₂) (h₂ : SameUpper l₂ l₃) :
    SameUpper l₁ l₃ := fun r hr => (h₂ r hr).trans (h₁ r hr)

/-! ## What a caller below Owner may do -/

theorem remove_lower {caller target : Role} (hc : caller ≠ .owner)
    (h : caller = .owner ∨ rolePrivilege caller < rolePrivilege target) : ¬ target.Upper := by
  rcases h with h | h
  · exact absurd h hc
  · rintro (rfl | rfl) <;> revert hc h <;> cases caller <;> decide

theorem promote_lower {caller old new : Role} (hc : caller ≠ .owner)
    (href : decide (rolePrivilege new ≥ rolePrivilege old) = false)
    (h : checkPermission caller (actionForRoleChange new) (some old) = true) : ¬ old.Upper ∧ ¬ new.Upper := by
  revert hc href h
  cases caller <;> cases old <;> cases new <;> simp [Role.Upper, rolePrivilege] <;> decide

theorem demote_lower {caller old new : Role} (hc : caller ≠ .owner)
    (href : decide (rolePrivilege new ≤ rolePrivilege old) = false)
    (h : checkPermission caller (actionForRoleChange old) (some old) = true) : ¬ old.Upper ∧ ¬ new.Upper := by
  revert hc href h
  cases caller <;> cases old <;> cases new <;> simp [Role.Upper, rolePrivilege] <;> decide

/-! ## What the operations do to the upper roles -/

theorem sameUpper_of_mem {l l' : List GroupMember} (h : ∀ m, m.role.Upper → (m ∈ l' ↔ m ∈ l)) : SameUpper l l' := by
  intro r hr
  ext i
  constructor
  · rintro ⟨m, hm, hi, rfl⟩; exact ⟨m, (h m hr).mp hm, hi, rfl⟩
  · rintro ⟨m, hm, hi, rfl⟩; exact ⟨m, (h m hr).mpr hm, hi, rfl⟩

theorem sameUpper_append {l : List GroupMember} {m : GroupMember} (hm : ¬ m.role.Upper) : SameUpper l (l ++ [m]) := by
  refine sameUpper_of_mem fun a ha => ?_
  simp only [List.mem_append, List.mem_singleton]
  exact ⟨fun h => h.resolve_right fun he => hm (he ▸ ha), .inl⟩

theorem sameUpper_filter {l : List GroupMember} (hd : Distinct l) {tm : GroupMember} (htm : tm ∈ l)
    (hlow : ¬ tm.role.Upper) : SameUpper l (l.filter fun m => m.identityId ≠ tm.identityId) := by
  refine sameUpper_of_mem fun a ha => ?_
  simp only [List.mem_filter, decide_eq_true_eq]
  exact ⟨fun h => h.1, fun h => ⟨h, fun he => hlow (hd.eq h htm he ▸ ha)⟩⟩

theorem sameUpper_setRole {l : List GroupMember} (hd : Distinct l) {tm : GroupMember} (htm : tm ∈ l) {role : Role}
    (hold : ¬ tm.role.Upper) (hnew : ¬ role.Upper) : SameUpper l (setRole tm.identityId role l) := by
  refine sameUpper_of_mem fun a ha => ?_
  rw [mem_setRole hd htm]
  constructor
  · rintro (⟨h, -⟩ | rfl)
    · exact h
    · exact absurd ha hnew
  · exact fun h => .inl ⟨h, fun he => hold (hd.eq h htm he ▸ ha)⟩

theorem sameUpper_nextEpoch (man : GroupManifest) (now : UInt64) :
    SameUpper man.members.val (nextEpoch man now).members.val :=
  sameUpper_of_mem fun _ _ => mem_nextEpoch

theorem caller_not_owner {man : GroupManifest} {caller : IdentityId} {cm : GroupMember}
    (hc : caller ∉ withRole man.members.val .owner) (h : findMember man caller = some cm) : cm.role ≠ .owner := by
  obtain ⟨hm, hid⟩ := findMember_some h
  exact fun ho => hc ⟨cm, hm, hid, ho⟩

theorem changeRole_sameUpper {refused : Role → Role → Bool} {actionFor : Role → Role → GroupAction}
    {caller target : IdentityId} {newRole : Role} {now : UInt64} {man man' : GroupManifest}
    (hlow : ∀ {caller old new : Role}, caller ≠ .owner → refused new old = false →
      checkPermission caller (actionFor new old) (some old) = true → ¬ old.Upper ∧ ¬ new.Upper)
    (hd : Distinct man.members.val) (hc : caller ∉ withRole man.members.val .owner)
    (h : changeRole refused actionFor caller target newRole now man = .ok (some man')) :
    Distinct man'.members.val ∧ SameUpper man.members.val man'.members.val := by
  obtain ⟨cm, tm, ms, hcm, htm, href, hperm, hms, hr⟩ := changeRole_some h
  obtain ⟨hmem, rfl⟩ := findMember_some htm
  obtain ⟨hold, hnew⟩ := hlow (caller_not_owner hc hcm) href hperm
  cases hr
  constructor
  · rw [nextEpoch_distinct, hms, Distinct, map_id_setRole]
    exact hd
  · refine SameUpper.trans ?_ (sameUpper_nextEpoch _ _)
    simp only [hms]
    exact sameUpper_setRole hd hmem hold hnew

theorem decision_sameUpper {c : Call} {man man' : GroupManifest} (hd : Distinct man.members.val)
    (hc : c.caller ∉ withRole man.members.val .owner) (h : c.decision man = .ok (some man')) :
    Distinct man'.members.val ∧ SameUpper man.members.val man'.members.val := by
  cases c with
  | addMember caller new addedAt now =>
    obtain ⟨cm, ms, -, -, hnew, -, hms, rfl⟩ := addMemberIn_some h
    constructor
    · rw [nextEpoch_distinct, hms, Distinct, List.map_append, List.nodup_append]
      refine ⟨hd, by simp, fun i hi j hj => ?_⟩
      obtain ⟨m, hm, rfl⟩ := List.mem_map.mp hi
      simp only [List.map_cons, List.map_nil, List.mem_singleton] at hj
      exact hj ▸ hnew m hm
    · refine SameUpper.trans ?_ (sameUpper_nextEpoch _ _)
      simp only [hms]
      exact sameUpper_append (by simp [Role.Upper])
  | removeMember caller target now =>
    obtain ⟨cm, tm, hcm, htm, -, hrank, hr⟩ := removeMemberIn_some h
    obtain ⟨hmem, rfl⟩ := findMember_some htm
    cases hr
    constructor
    · rw [nextEpoch_distinct]
      exact hd.sublist (List.filter_sublist.map _)
    · refine SameUpper.trans ?_ (sameUpper_nextEpoch _ _)
      exact sameUpper_filter hd hmem (remove_lower (caller_not_owner hc hcm) hrank)
  | promote caller target role now => exact changeRole_sameUpper promote_lower hd hc h
  | demote caller target role now => exact changeRole_sameUpper demote_lower hd hc h

theorem step_sameUpper {db : ZeroDb} {g : GroupId} {man : GroupManifest} (hman : manifestAt db g = .ok man)
    (hd : Distinct man.members.val) {c : GroupId × Call}
    (hc : c.1 = g → c.2.caller ∉ withRole man.members.val .owner) :
    ∃ man', manifestAt (db.run (c.2.prog c.1)).2 g = .ok man' ∧ Distinct man'.members.val ∧
      SameUpper man.members.val man'.members.val := by
  obtain ⟨g', c⟩ := c
  have keep : ∃ man', manifestAt db g = .ok man' ∧ Distinct man'.members.val ∧
      SameUpper man.members.val man'.members.val := ⟨man, hman, hd, fun _ _ => rfl⟩
  rw [Call.prog_eq]
  rcases updateManifest_cases (Prod.mk.eta (p := db.run (updateManifest g' c.decision))).symm with
    ⟨-, -, hdb⟩ | ⟨-, -, -, -, hdb⟩ | ⟨man₁, man₂, hman₁, hdec, -, hdb⟩
  · rw [hdb]; exact keep
  · rw [hdb]; exact keep
  · rw [hdb, manifestAt_put]
    by_cases hg : g = g'
    · subst hg
      rw [hman] at hman₁
      cases hman₁
      obtain ⟨hd', hs⟩ := decision_sameUpper hd (hc rfl) hdec
      exact ⟨man₂, if_pos rfl, hd', hs⟩
    · rw [if_neg hg]; exact keep

/-- **Privilege containment.** Whatever sequence of membership calls is made
on whatever groups, as long as no caller on group `g` is an Owner in its
starting manifest, the Owners and the Admins of `g` are in the end exactly
those of the start. -/
theorem privilege_containment {db : ZeroDb} {g : GroupId} {man : GroupManifest} (hman : manifestAt db g = .ok man)
    (hd : Distinct man.members.val) (calls : List (GroupId × Call))
    (hc : ∀ c ∈ calls, c.1 = g → c.2.caller ∉ withRole man.members.val .owner) :
    ∃ man', manifestAt (runCalls db calls) g = .ok man' ∧
      withRole man'.members.val .owner = withRole man.members.val .owner ∧
      withRole man'.members.val .admin = withRole man.members.val .admin := by
  induction calls generalizing db man with
  | nil => exact ⟨man, hman, rfl, rfl⟩
  | cons c calls ih =>
    obtain ⟨man₁, hman₁, hd₁, hs⟩ := step_sameUpper hman hd (hc c (by simp))
    -- the later callers are no Owners of the next manifest: its Owners are the same
    have hc' : ∀ c' ∈ calls, c'.1 = g → c'.2.caller ∉ withRole man₁.members.val .owner := by
      intro c' hc' hg
      rw [hs .owner (.inl rfl)]
      exact hc c' (by simp [hc']) hg
    obtain ⟨man', hman', ho, ha⟩ := ih hman₁ hd₁ hc'
    exact ⟨man', hman', ho.trans (hs .owner (.inl rfl)), ha.trans (hs .admin (.inr rfl))⟩

/-- A group of an Owner, an Admin and a Member: `id(1)`, `id(2)` and `id(3)`
in the notation of the source's tests. -/
def trio (g : GroupId) : GroupManifest where
  groupId := g
  name := Str.empty
  creator := ⟨Arr.fill 16 1⟩
  members := ⟨[⟨⟨Arr.fill 16 1⟩, ⟨Arr.fill 16 0⟩, .owner, 5⟩, ⟨⟨Arr.fill 16 2⟩, ⟨Arr.fill 16 0⟩, .admin, 5⟩,
    ⟨⟨Arr.fill 16 3⟩, ⟨Arr.fill 16 0⟩, .member, 5⟩], by decide⟩
  mlsEpoch := 0
  mlsStateBlob := Vec.empty
  createdAtMs := 5
  updatedAtMs := 5

/-- The Admin makes the Member a Moderator, the new Moderator goes for the
Owner, and the Admin adds somebody and goes for Admin rights for them. -/
theorem privilege_containment_trio :
    let g : GroupId := ⟨Arr.fill 16 9⟩
    let calls := [(g, Call.promote ⟨Arr.fill 16 2⟩ ⟨Arr.fill 16 3⟩ .moderator 6),
      (g, Call.removeMember ⟨Arr.fill 16 3⟩ ⟨Arr.fill 16 1⟩ 7),
      (g, Call.addMember ⟨Arr.fill 16 2⟩ ⟨Arr.fill 16 4⟩ 8 8),
      (g, Call.promote ⟨Arr.fill 16 2⟩ ⟨Arr.fill 16 4⟩ .admin 9)]
    ∃ man', manifestAt (runCalls (ZeroDb.empty.put .groups g.bytes.val (encodeManifest (trio g))) calls) g = .ok man' ∧
      withRole man'.members.val .owner = withRole (trio g).members.val .owner ∧
      withRole man'.members.val .admin = withRole (trio g).members.val .admin := by
  exact privilege_containment (manifestAt_put_self _ _ _) (by decide) _ (by decide)

end ZeroSdk.Group
