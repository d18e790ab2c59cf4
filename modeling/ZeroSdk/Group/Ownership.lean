/-
Does a group keep an Owner? An Owner may do everything, also to the last
Owner: nothing stops it from removing or demoting itself
(`last_owner_leaves`), and then nobody is left who could make another.

`owner_until_last_leaves` says exactly when: after any sequence of
membership calls the group has an Owner if and only if none of them took
the last one. Founders may be listed twice, so the Owners are counted as
entries of the manifest, not as identities.
-/
import ZeroSdk.Group.Invariant

namespace ZeroSdk.Group

/-- How many Owners there are. -/
def ownerCount (l : List GroupMember) : Nat := l.countP fun m => m.role = .owner

def HasOwner (man : GroupManifest) : Prop := ∃ m ∈ man.members.val, m.role = .owner

instance (man : GroupManifest) : Decidable (HasOwner man) :=
  inferInstanceAs (Decidable (∃ m ∈ man.members.val, m.role = .owner))

theorem hasOwner_iff {man : GroupManifest} : HasOwner man ↔ 0 < ownerCount man.members.val := by
  simp [HasOwner, ownerCount, List.countP_pos_iff]

/-- What the call would take is the last Owner: it removes somebody who is
every Owner, or demotes the only one. -/
def Call.TakesLastOwner (man : GroupManifest) : Call → Prop
  | .removeMember _ target _ => ∀ m ∈ man.members.val, m.role = .owner → m.identityId = target
  | .demote _ target _ _ =>
    (∃ m, findMember man target = some m ∧ m.role = .owner) ∧ ownerCount man.members.val = 1
  | .addMember _ _ _ _ | .promote _ _ _ _ => False

/-! ## One decision -/

/-- A role is changed in the entry `find?` finds. -/
theorem ownerCount_setRole {l : List GroupMember} {target : IdentityId} {tm : GroupMember}
    (h : l.find? (fun m => m.identityId = target) = some tm) (role : Role) :
    ownerCount (setRole target role l) + (if tm.role = .owner then 1 else 0) =
      ownerCount l + (if role = .owner then 1 else 0) := by
  induction l with
  | nil => cases h
  | cons a l ih =>
    simp only [setRole]
    by_cases ha : a.identityId = target
    · simp only [List.find?_cons, ha, decide_true, Option.some.injEq] at h
      subst h
      simp only [ha, if_true, ownerCount, List.countP_cons, decide_eq_true_eq]
      omega
    · simp only [List.find?_cons, ha, decide_false] at h
      have hl := ih h
      simp only [ha, if_false, ownerCount, List.countP_cons] at hl ⊢
      omega

theorem ownerCount_nextEpoch (man : GroupManifest) (now : UInt64) :
    ownerCount (nextEpoch man now).members.val = ownerCount man.members.val := (nextEpoch_perm man now).countP_eq _

/-- Only an Owner makes an Owner. -/
theorem promote_to_owner {caller old : Role} (h : checkPermission caller (actionForRoleChange .owner) (some old) = true) :
    caller = .owner := by
  revert h
  cases caller <;> cases old <;> decide

theorem decision_owner {c : Call} {man man' : GroupManifest} (h : c.decision man = .ok (some man')) :
    HasOwner man' ↔ HasOwner man ∧ ¬ c.TakesLastOwner man := by
  cases c with
  | addMember caller new addedAt now =>
    obtain ⟨cm, ms, -, -, -, -, hms, rfl⟩ := addMemberIn_some h
    have hcount : ownerCount (man.members.val ++ [⟨new, ⟨Arr.fill 16 0⟩, .member, addedAt⟩]) =
        ownerCount man.members.val := by simp [ownerCount]
    simp only [hasOwner_iff, ownerCount_nextEpoch, hms, hcount, Call.TakesLastOwner, not_false_iff, and_true]
  | removeMember caller target now =>
    obtain ⟨cm, tm, -, -, -, -, hr⟩ := removeMemberIn_some h
    cases hr
    simp only [HasOwner, mem_nextEpoch, Vec.retain, List.mem_filter, decide_eq_true_eq, Call.TakesLastOwner]
    constructor
    · rintro ⟨m, ⟨hm, hne⟩, ho⟩
      exact ⟨⟨m, hm, ho⟩, fun hall => hne (hall m hm ho)⟩
    · rintro ⟨-, hnot⟩
      simp only [not_forall] at hnot
      obtain ⟨m, hm, ho, hne⟩ := hnot
      exact ⟨m, ⟨hm, hne⟩, ho⟩
  | promote caller target role now =>
    simp only [Call.decision, promoteIn] at h
    obtain ⟨cm, tm, ms, hcm, htm, href, hperm, hms, hr⟩ := changeRole_some h
    cases hr
    have hcount := ownerCount_setRole htm role
    have hold : tm.role ≠ .owner := by
      intro ho
      rw [ho] at href
      simp [rolePrivilege] at href
    simp only [hasOwner_iff, ownerCount_nextEpoch, hms, Call.TakesLastOwner, not_false_iff, and_true]
    simp only [hold, if_false] at hcount
    by_cases hrole : role = .owner
    · -- the caller is an Owner already
      subst hrole
      have hown : 0 < ownerCount man.members.val :=
        hasOwner_iff.mp ⟨cm, (findMember_some hcm).1, promote_to_owner hperm⟩
      simp only [if_true] at hcount
      omega
    · simp only [hrole, if_false] at hcount
      omega
  | demote caller target role now =>
    simp only [Call.decision, demoteIn] at h
    obtain ⟨cm, tm, ms, -, htm, href, -, hms, hr⟩ := changeRole_some h
    cases hr
    have hcount := ownerCount_setRole htm role
    have hrole : role ≠ .owner := by
      intro ho
      rw [ho] at href
      simp [rolePrivilege] at href
    have hfind : (∃ m, findMember man target = some m ∧ m.role = .owner) ↔ tm.role = .owner := by
      simp [htm]
    simp only [hasOwner_iff, ownerCount_nextEpoch, hms, Call.TakesLastOwner, hfind]
    simp only [hrole, if_false] at hcount
    by_cases ho : tm.role = .owner
    · simp only [ho, if_true] at hcount
      simp only [ho, true_and]
      omega
    · simp only [ho, if_false] at hcount
      simp only [ho, false_and, not_false_iff, and_true]
      omega

theorem decision_none_keeps {c : Call} {man : GroupManifest} (h : c.decision man = .ok none) :
    ¬ c.TakesLastOwner man := by
  obtain ⟨caller, new, addedAt, now, rfl, -⟩ := decision_none h
  exact id

theorem created_hasOwner {db : ZeroDb} {label : Str} {founders : Vec IdentityId} {g : GroupId} {ts : UInt64}
    (hne : founders.val ≠ []) (hcreate : (db.run (createGroup label founders g ts)).1 = .ok g) :
    ∃ man, manifestAt (db.run (createGroup label founders g ts)).2 g = .ok man ∧ HasOwner man := by
  obtain ⟨who, rest, hf⟩ := List.exists_cons_of_ne_nil hne
  unfold createGroup at hcreate ⊢
  split at hcreate
  · cases hcreate
  next hlabel =>
  rw [if_neg hlabel]
  refine ⟨_, manifestAt_put_self _ _ _, ⟨who, ⟨Arr.fill 16 0⟩, .owner, ts⟩, ?_, rfl⟩
  simp [normalizeMembers, Vec.sortBy, Vec.map, hf]

/-! ## Runs -/

/-- The call succeeds and takes the last Owner of `g`. -/
def TakesOwner (g : GroupId) (db : ZeroDb) (c : GroupId × Call) : Prop :=
  c.1 = g ∧ (db.run (c.2.prog g)).1 = .ok () ∧ ∃ man, manifestAt db g = .ok man ∧ c.2.TakesLastOwner man

theorem step_owner {db : ZeroDb} {g : GroupId} {man : GroupManifest} (hman : manifestAt db g = .ok man)
    (c : GroupId × Call) :
    ∃ man', manifestAt (db.run (c.2.prog c.1)).2 g = .ok man' ∧
      (HasOwner man' ↔ HasOwner man ∧ ¬ TakesOwner g db c) := by
  obtain ⟨g', c⟩ := c
  -- a call that leaves the manifest takes nobody
  have keep : (g' = g → (db.run (c.prog g)).1 = .ok () → ¬ c.TakesLastOwner man) →
      (HasOwner man ↔ HasOwner man ∧ ¬ TakesOwner g db (g', c)) := by
    intro hnot
    refine (and_iff_left ?_).symm
    rintro ⟨hg, hok, man₁, hman₁, htakes⟩
    rw [hman] at hman₁
    cases hman₁
    exact hnot hg hok htakes
  rcases updateManifest_cases (Prod.mk.eta (p := db.run (updateManifest g' c.decision))).symm with
    ⟨e, hr, hdb⟩ | ⟨man₁, hman₁, hdec, hr, hdb⟩ | ⟨man₁, man₂, hman₁, hdec, hr, hdb⟩
  · rw [← Call.prog_eq] at hr hdb
    rw [hdb]
    refine ⟨man, hman, keep fun hg hok => ?_⟩
    subst hg
    cases hr.symm.trans hok
  · rw [← Call.prog_eq] at hr hdb
    rw [hdb]
    refine ⟨man, hman, keep fun hg _ => ?_⟩
    subst hg
    rw [hman] at hman₁
    cases hman₁
    exact decision_none_keeps hdec
  · rw [← Call.prog_eq] at hr hdb
    rw [hdb, manifestAt_put]
    by_cases hg : g = g'
    · subst hg
      rw [hman] at hman₁
      cases hman₁
      refine ⟨man₂, if_pos rfl, (decision_owner hdec).trans (and_congr_right fun _ => not_congr ⟨fun ht => ?_, ?_⟩)⟩
      · exact ⟨rfl, hr, man, hman, ht⟩
      · rintro ⟨-, -, man', hman', ht⟩
        rw [hman] at hman'
        cases hman'
        exact ht
    · rw [if_neg hg]
      exact ⟨man, hman, keep fun hg' => absurd hg'.symm hg⟩

theorem run_owner {db : ZeroDb} {g : GroupId} {man : GroupManifest} (hman : manifestAt db g = .ok man)
    (calls : List (GroupId × Call)) :
    ∃ man', manifestAt (runCalls db calls) g = .ok man' ∧
      (HasOwner man' ↔ HasOwner man ∧ ∀ pre c post, calls = pre ++ c :: post → ¬ TakesOwner g (runCalls db pre) c) := by
  induction calls generalizing db man with
  | nil => exact ⟨man, hman, by simp⟩
  | cons c calls ih =>
    obtain ⟨man₁, hman₁, hown₁⟩ := step_owner hman c
    obtain ⟨man', hman', hown'⟩ := ih hman₁
    refine ⟨man', hman', hown'.trans ?_⟩
    rw [hown₁, and_assoc]
    refine and_congr_right fun _ => ⟨fun ⟨hc, hrest⟩ pre d post heq => ?_, fun h => ⟨h [] c calls rfl, ?_⟩⟩
    · cases pre with
      | nil =>
        cases heq
        exact hc
      | cons e pre =>
        cases heq
        exact hrest pre d post rfl
    · rintro pre d post rfl
      exact h (c :: pre) d post rfl

/-- **Ownership.** A group made by `create_group` with founders has an Owner
after a sequence of membership calls, on whatever groups and successful or
not, exactly if no successful call of the sequence took its last Owner. -/
theorem owner_until_last_leaves {db : ZeroDb} {label : Str} {founders : Vec IdentityId} {g : GroupId} {ts : UInt64}
    (hne : founders.val ≠ []) (hcreate : (db.run (createGroup label founders g ts)).1 = .ok g)
    (calls : List (GroupId × Call)) :
    ∃ man, manifestAt (runCalls (db.run (createGroup label founders g ts)).2 calls) g = .ok man ∧
      (HasOwner man ↔ ∀ pre c post, calls = pre ++ c :: post →
        ¬ TakesOwner g (runCalls (db.run (createGroup label founders g ts)).2 pre) c) := by
  obtain ⟨man, hman, hown⟩ := created_hasOwner hne hcreate
  obtain ⟨man', hman', hown'⟩ := run_owner hman calls
  exact ⟨man', hman', hown'.trans (and_iff_right hown)⟩

/-- A group of the one founder `id(1)`. -/
def founded (g : GroupId) : ZeroDb :=
  (ZeroDb.empty.run (createGroup Str.empty (Vec.singleton ⟨Arr.fill 16 1⟩) g 5)).2

/-- The founder makes a second Owner and leaves. -/
theorem owner_until_last_leaves_two :
    let g : GroupId := ⟨Arr.fill 16 9⟩
    let calls := [(g, Call.addMember ⟨Arr.fill 16 1⟩ ⟨Arr.fill 16 2⟩ 6 6),
      (g, .promote ⟨Arr.fill 16 1⟩ ⟨Arr.fill 16 2⟩ .owner 7), (g, .removeMember ⟨Arr.fill 16 1⟩ ⟨Arr.fill 16 1⟩ 8)]
    (manifestAt (runCalls (founded g) calls) g).map (fun man => decide (HasOwner man)) = .ok true ∧
    ∃ man, manifestAt (runCalls (founded g) calls) g = .ok man ∧
      (HasOwner man ↔ ∀ pre c post, calls = pre ++ c :: post → ¬ TakesOwner g (runCalls (founded g) pre) c) := by
  intro g calls
  have hcreate : (ZeroDb.empty.run (createGroup Str.empty (Vec.singleton ⟨Arr.fill 16 1⟩) g 5)).1 = .ok g := by
    decide +kernel
  exact ⟨by decide +kernel, owner_until_last_leaves (List.cons_ne_nil _ _) hcreate calls⟩

/-- The founder removes itself, or demotes itself: the call succeeds, and the
group has no Owner. -/
theorem last_owner_leaves :
    let g : GroupId := ⟨Arr.fill 16 9⟩
    let who : IdentityId := ⟨Arr.fill 16 1⟩
    (ZeroDb.empty.run (createGroup Str.empty ⟨[who], by decide⟩ g 5)).1 = .ok g ∧
    ∀ c ∈ [Call.removeMember who who 6, .demote who who .member 6],
      ((founded g).run (c.prog g)).1 = .ok () ∧
      (manifestAt (runCalls (founded g) [(g, c)]) g).map (fun man => decide (HasOwner man)) = .ok false := by
  decide +kernel

end ZeroSdk.Group
