/-
Merging the manifests of two replicas: the higher epoch wins, then the later
update. `merge_manifests` says it is commutative, and it is not when two
different manifests have the same epoch and the same update time, since then
the first argument is returned (`merge_depends_on_order`). Any number of
replicas converge exactly when their newest manifests agree
(`merge_converges_iff`).
-/
import Mathlib.Data.Prod.Lex
import ZeroSdk.Group.Membership
import ZeroSdk.Lib.Winner

namespace ZeroSdk.Group

/-- `persist_manifest`: under the group the manifest names. -/
def persistManifest (man : GroupManifest) : DbProg GroupError Unit :=
  (putRaw .groups man.groupId.bytes.val (encodeManifest man)).mapErr .storage

def loadManifest (groupId : GroupId) : DbProg GroupError (Option GroupManifest) := do
  match ← (getRaw .groups groupId.bytes.val).mapErr .storage with
  | some bytes => (Prog.lift (decodeManifest bytes) : DbProg GroupError GroupManifest) >>= fun man => pure (some man)
  | none => pure none

/-- `merge_manifest`: on a tie, `a`. Both functions assert equal group ids in
debug builds only. -/
def mergeManifest (a b : GroupManifest) : GroupManifest :=
  if a.mlsEpoch > b.mlsEpoch then a
  else if b.mlsEpoch > a.mlsEpoch then b
  else if b.updatedAtMs > a.updatedAtMs then b
  else a

/-- `merge_manifests`: the winner is chosen as in `merge_manifest` and its
members sorted. -/
def mergeManifests (a b : GroupManifest) : GroupManifest :=
  let winner :=
    if a.mlsEpoch > b.mlsEpoch then a
    else if b.mlsEpoch > a.mlsEpoch then b
    else if a.updatedAtMs ≥ b.updatedAtMs then a
    else b
  normalizeMembers winner

/-- The manifest replicas arrive at by merging theirs from left to right. -/
def mergeReplicas : List GroupManifest → Option GroupManifest := Winner.mergeAll mergeManifests

/-- What the winner is chosen by. -/
def version (man : GroupManifest) : ℕ ×ₗ ℕ := toLex (man.mlsEpoch.toNat, man.updatedAtMs.toNat)

/-- A manifest of the list that no other one is newer than. -/
def Newest (l : List GroupManifest) (man : GroupManifest) : Prop :=
  man ∈ l ∧ ∀ b ∈ l, b.mlsEpoch < man.mlsEpoch ∨ b.mlsEpoch = man.mlsEpoch ∧ b.updatedAtMs ≤ man.updatedAtMs

theorem version_le {a b : GroupManifest} :
    version a ≤ version b ↔ a.mlsEpoch < b.mlsEpoch ∨ a.mlsEpoch = b.mlsEpoch ∧ a.updatedAtMs ≤ b.updatedAtMs := by
  rw [version, version, Prod.Lex.toLex_le_toLex, UInt64.lt_iff_toNat_lt, UInt64.le_iff_toNat_le, UInt64.toNat_inj]

theorem newest_iff {l : List GroupManifest} {man : GroupManifest} : Newest l man ↔ Winner.Top version l man := by
  simp only [Newest, Winner.Top, version_le]

theorem normalizeMembers_idem (man : GroupManifest) :
    normalizeMembers (normalizeMembers man) = normalizeMembers man := by
  simp only [normalizeMembers, Vec.sortBy, GroupManifest.mk.injEq, Subtype.mk.injEq, true_and, and_true]
  exact (List.pairwise_insertionSort idLe _).insertionSort_eq

theorem version_normalizeMembers (man : GroupManifest) : version (normalizeMembers man) = version man := rfl

theorem mergeManifests_eq_normalize (a b : GroupManifest) :
    mergeManifests a b = normalizeMembers (mergeManifest a b) := by
  simp only [mergeManifests, mergeManifest]
  congr 1
  simp only [gt_iff_lt, ge_iff_le, UInt64.lt_iff_toNat_lt, UInt64.le_iff_toNat_le]
  split
  · rfl
  split
  · rfl
  by_cases h : a.updatedAtMs.toNat < b.updatedAtMs.toNat
  · rw [if_neg (by omega), if_pos h]
  · rw [if_pos (by omega), if_neg h]

theorem mergeManifest_eq_winner (a b : GroupManifest) : mergeManifest a b = Winner.winner version a b := by
  simp only [mergeManifest, Winner.winner, version_le, gt_iff_lt, UInt64.lt_iff_toNat_lt, UInt64.le_iff_toNat_le,
    ← UInt64.toNat_inj]
  split
  · next h => rw [if_pos (.inl h)]
  split
  · next h => rw [if_neg (by omega)]
  split
  · next h => rw [if_neg (by omega)]
  · next h => rw [if_pos (.inr (by omega))]

theorem mergeManifests_eq : mergeManifests = Winner.merge version normalizeMembers := by
  funext a b
  rw [mergeManifests_eq_normalize, mergeManifest_eq_winner, Winner.merge]

/-- The grouping of merges never matters, ties or not. -/
theorem mergeManifests_assoc (a b c : GroupManifest) :
    mergeManifests (mergeManifests a b) c = mergeManifests a (mergeManifests b c) := by
  rw [mergeManifests_eq]
  exact Winner.merge_assoc version_normalizeMembers normalizeMembers_idem a b c

/-- **Replica convergence.** Merging a list of manifests gives the same
result in every order exactly when its newest manifests are the same up to
the order of their members. -/
theorem merge_converges_iff (l : List GroupManifest) :
    (∀ l', l'.Perm l → mergeReplicas l' = mergeReplicas l) ↔
      ∀ a b, Newest l a → Newest l b → normalizeMembers a = normalizeMembers b := by
  simp only [mergeReplicas, mergeManifests_eq, newest_iff]
  exact Winner.mergeAll_perm_iff version_normalizeMembers normalizeMembers_idem l

/-- A group of one Owner under the given name. -/
def renamed (name : Str) : GroupManifest where
  groupId := ⟨Arr.fill 16 1⟩
  name
  creator := ⟨Arr.fill 16 1⟩
  members := Vec.singleton ⟨⟨Arr.fill 16 1⟩, ⟨Arr.fill 16 0⟩, .owner, 5⟩
  mlsEpoch := 3
  mlsStateBlob := Vec.empty
  createdAtMs := 5
  updatedAtMs := 8

/-- Two replicas of one group that differ in the name alone, at the same
epoch and millisecond: each order of merging keeps its own first one. -/
theorem merge_depends_on_order :
    let a := renamed ⟨Bytes.ascii ['a'], by decide, by decide⟩
    let b := renamed ⟨Bytes.ascii ['b'], by decide, by decide⟩
    a.groupId = b.groupId ∧ [b, a].Perm [a, b] ∧ mergeReplicas [b, a] ≠ mergeReplicas [a, b] := by
  refine ⟨rfl, List.Perm.swap _ _ _, by decide⟩

end ZeroSdk.Group
