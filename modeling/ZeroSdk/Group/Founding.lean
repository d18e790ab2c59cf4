/-
Does `create_group` store a manifest the membership operations can start from?
They keep members distinct and ascending and at most `MAX_GROUP_SIZE` of them
(`step_effect`), but only if that holds to begin with. `create_group` sorts the
founders and checks neither that they are distinct nor how many they are, so
it holds exactly of founder lists that meet both (`created_wellFormed_iff`).

Of an identity that founds a group twice, `promote` and `demote` change one
entry and leave the other (`founder_twice`).
-/
import ZeroSdk.Group.Invariant

namespace ZeroSdk.Group

/-- The manifest `create_group` stores. -/
def foundingManifest (label : Str) (founders : Vec IdentityId) (g : GroupId) (ts : UInt64) : GroupManifest :=
  normalizeMembers {
    groupId := g
    name := label
    creator := founders.val.head?.getD ⟨Arr.fill 16 0⟩
    members := founders.map fun id => ⟨id, ⟨Arr.fill 16 0⟩, .owner, ts⟩
    mlsEpoch := 0
    mlsStateBlob := Vec.empty
    createdAtMs := ts
    updatedAtMs := ts }

section Founding
variable {db : ZeroDb} {label : Str} {founders : Vec IdentityId} {g : GroupId} {ts : UInt64}

theorem created_manifest (h : (db.run (createGroup label founders g ts)).1 = .ok g) :
    manifestAt (db.run (createGroup label founders g ts)).2 g = .ok (foundingManifest label founders g ts) := by
  unfold createGroup at h ⊢
  split at h
  · cases h
  next hlabel =>
  rw [if_neg hlabel]
  exact manifestAt_put_self _ _ _

theorem founding_ids : ((foundingManifest label founders g ts).members.val.map (·.identityId)).Perm founders.val := by
  have hperm := List.perm_insertionSort idLe
    (founders.val.map fun id => (⟨id, ⟨Arr.fill 16 0⟩, .owner, ts⟩ : GroupMember))
  have hids := hperm.map (·.identityId)
  have hid : (fun m : GroupMember => m.identityId) ∘ (fun id => ⟨id, ⟨Arr.fill 16 0⟩, .owner, ts⟩) = id := rfl
  rw [List.map_map, hid, List.map_id] at hids
  exact hids

theorem founding_length : (foundingManifest label founders g ts).members.val.length = founders.val.length := by
  rw [← founding_ids.length_eq, List.length_map]

theorem founding_sorted : (foundingManifest label founders g ts).members.val.Pairwise idLe :=
  List.pairwise_insertionSort idLe _

theorem founding_wellFormed_iff :
    WellFormed g (foundingManifest label founders g ts) ↔ founders.val.Nodup ∧ founders.val.length ≤ maxGroupSize := by
  constructor
  · intro h
    exact ⟨founding_ids.nodup_iff.mp h.distinct, founding_length ▸ h.size⟩
  · intro ⟨hdistinct, hsize⟩
    exact ⟨ascending_of_distinct founding_sorted (founding_ids.nodup_iff.mpr hdistinct), founding_length ▸ hsize, rfl⟩

/-- **When `create_group` establishes the manifest invariant.** The manifest it
stores has distinct, ascending members and at most `MAX_GROUP_SIZE` of them
exactly if the founders are distinct and at most that many; and from there the
invariant holds along every sequence of membership calls too short to wrap the
epoch counter. -/
theorem created_wellFormed_iff (h : (db.run (createGroup label founders g ts)).1 = .ok g) :
    ∃ man, manifestAt (db.run (createGroup label founders g ts)).2 g = .ok man ∧
      (WellFormed g man ↔ founders.val.Nodup ∧ founders.val.length ≤ maxGroupSize) ∧
      (founders.val.Nodup ∧ founders.val.length ≤ maxGroupSize → ∀ calls : List (GroupId × Call),
        calls.length < 2 ^ 64 → ∃ man', manifestAt (runCalls (db.run (createGroup label founders g ts)).2 calls) g =
          .ok man' ∧ WellFormed g man') := by
  have hman := created_manifest h
  refine ⟨_, hman, founding_wellFormed_iff, fun hfit calls hn => ?_⟩
  obtain ⟨man', hman', hwf, -⟩ := run_follows hman (founding_wellFormed_iff.mpr hfit) calls (by
    change 0 + calls.length < 2 ^ 64
    omega)
  exact ⟨man', hman', hwf⟩

end Founding

/-- Two founders. -/
theorem created_wellFormed_iff_two :
    let g : GroupId := ⟨Arr.fill 16 9⟩
    let founders : Vec IdentityId := ⟨[⟨Arr.fill 16 2⟩, ⟨Arr.fill 16 1⟩], by decide⟩
    ∃ man, manifestAt (ZeroDb.empty.run (createGroup Str.empty founders g 5)).2 g = .ok man ∧ WellFormed g man := by
  intro g founders
  have hcreate : (ZeroDb.empty.run (createGroup Str.empty founders g 5)).1 = .ok g := by decide +kernel
  obtain ⟨man, hman, hiff, -⟩ := created_wellFormed_iff hcreate
  exact ⟨man, hman, hiff.mpr (by decide)⟩

/-- One identity founds a group twice: the manifest has it twice, and after it
demotes itself it is both a Member and an Owner. -/
theorem founder_twice :
    let g : GroupId := ⟨Arr.fill 16 9⟩
    let who : IdentityId := ⟨Arr.fill 16 1⟩
    let db := (ZeroDb.empty.run (createGroup Str.empty ⟨[who, who], by decide⟩ g 5)).2
    (ZeroDb.empty.run (createGroup Str.empty ⟨[who, who], by decide⟩ g 5)).1 = .ok g ∧
      (manifestAt db g).map (fun man => man.members.val.map (·.identityId)) = .ok [who, who] ∧
      (manifestAt (runCalls db [(g, .demote who who .member 6)]) g).map
        (fun man => man.members.val.map fun m => (m.identityId, m.role)) = .ok [(who, .member), (who, .owner)] := by
  decide +kernel

end ZeroSdk.Group
