/-
Membership calls that run at the same time on one group. Each reads the
manifest and later writes it back whole, with nothing in between that would
notice another call's write: two `add_member` calls that both read before
either writes both return `Ok`, and the manifest has one new member and one
new epoch (`concurrent_add_lost`).

`no_lost_update` is what holds: over every interleaving in which no call
writes between another's read and write, every call that returned `Ok`
shows in the manifest until a later one undoes it, and the epoch has moved
by the number of writes.
-/
import ZeroSdk.Group.Invariant
import ZeroSdk.Storage.Threads

namespace ZeroSdk.Group
open Interleave

variable {ι : Type}

/-- The calls on a group of a shared database, none of them started. -/
def concurrently (g : GroupId) (db : ZeroDb) (calls : ι → Call) : Threads ι GroupError :=
  ⟨fun i => (calls i).prog g, db⟩

/-- What a call that returned `Ok` has brought about. -/
def Call.Holds : Call → GroupManifest → Prop
  | .addMember _ new _ _, man => ∃ m ∈ man.members.val, m.identityId = new
  | .removeMember _ target _, man => ∀ m ∈ man.members.val, m.identityId ≠ target
  | .promote _ target role _, man | .demote _ target role _, man =>
    ∃ m ∈ man.members.val, m.identityId = target ∧ m.role = role

/-- The member a call is about. -/
def Call.subject : Call → IdentityId
  | .addMember _ new _ _ => new
  | .removeMember _ target _ | .promote _ target _ _ | .demote _ target _ _ => target

/-- `d.Undoes c`: what `c` brought about need not hold after `d`. A removal
undoes an addition of the same member and an addition a removal; a role
lasts until the member is removed or given another. -/
def Call.Undoes (d c : Call) : Prop :=
  d.subject = c.subject ∧
    match c, d with
    | .addMember .., .removeMember .. => True
    | .removeMember .., .addMember .. => True
    | .promote .., .addMember .. | .demote .., .addMember .. => False
    | .promote .., _ | .demote .., _ => True
    | _, _ => False

/-! ## One decision -/

/-- Whether the member was there before: not for an addition, but for any
other call. -/
def Call.Before : Call → GroupManifest → Prop
  | .addMember _ new _ _, man => ∀ m ∈ man.members.val, m.identityId ≠ new
  | .removeMember _ target _, man | .promote _ target _ _, man | .demote _ target _ _, man =>
    ∃ m ∈ man.members.val, m.identityId = target

theorem mem_setRole_of_ne {target : IdentityId} {role : Role} {l : List GroupMember} {m : GroupMember}
    (hm : m.identityId ≠ target) : m ∈ setRole target role l ↔ m ∈ l := by
  induction l with
  | nil => rfl
  | cons a l ih =>
    simp only [setRole]
    split
    · next ha =>
      have hne : ∀ r, m ≠ { a with role := r } := by
        intro r heq
        subst heq
        exact hm ha
      simp only [List.mem_cons, hne role, hne a.role, false_or]
    · simp only [List.mem_cons, ih]

theorem exists_mem_setRole {target : IdentityId} (role : Role) {l : List GroupMember} {tm : GroupMember} (htm : tm ∈ l)
    (hid : tm.identityId = target) : ∃ m ∈ setRole target role l, m.identityId = target ∧ m.role = role := by
  induction l with
  | nil => cases htm
  | cons a l ih =>
    simp only [setRole]
    split
    · next ha => exact ⟨_, List.mem_cons_self, ha, rfl⟩
    · next ha =>
      rcases List.mem_cons.mp htm with rfl | htm
      · exact absurd hid ha
      · obtain ⟨m, hm, h⟩ := ih htm
        exact ⟨m, List.mem_cons_of_mem _ hm, h⟩

/-- What a write of a call does to the manifest it decided on. -/
structure Call.Wrote (c : Call) (man man' : GroupManifest) : Prop where
  epoch : man'.mlsEpoch = man.mlsEpoch + 1
  before : c.Before man
  holds : c.Holds man'
  others : ∀ m, m.identityId ≠ c.subject → (m ∈ man'.members.val ↔ m ∈ man.members.val)

theorem changeRole_wrote {refused : Role → Role → Bool} {actionFor : Role → Role → GroupAction}
    {caller target : IdentityId} {newRole : Role} {now : UInt64} {man man' : GroupManifest}
    (h : changeRole refused actionFor caller target newRole now man = .ok (some man')) :
    man'.mlsEpoch = man.mlsEpoch + 1 ∧ (∃ m ∈ man.members.val, m.identityId = target) ∧
      (∃ m ∈ man'.members.val, m.identityId = target ∧ m.role = newRole) ∧
      ∀ m, m.identityId ≠ target → (m ∈ man'.members.val ↔ m ∈ man.members.val) := by
  obtain ⟨cm, tm, ms, -, htm, -, -, hms, hr⟩ := changeRole_some h
  obtain ⟨hmem, hid⟩ := findMember_some htm
  cases hr
  refine ⟨rfl, ⟨tm, hmem, hid⟩, ?_, fun m hm => ?_⟩
  · obtain ⟨m, hm, hrole⟩ := exists_mem_setRole newRole hmem hid
    exact ⟨m, by rw [mem_nextEpoch, hms]; exact hm, hrole⟩
  · rw [mem_nextEpoch, hms]
    exact mem_setRole_of_ne hm

theorem decision_wrote {c : Call} {man man' : GroupManifest} (h : c.decision man = .ok (some man')) :
    c.Wrote man man' := by
  cases c with
  | addMember caller new addedAt now =>
    obtain ⟨cm, ms, -, -, hnew, -, hms, rfl⟩ := addMemberIn_some h
    refine ⟨rfl, hnew, ⟨⟨new, ⟨Arr.fill 16 0⟩, .member, addedAt⟩, ?_, rfl⟩, fun m hm => ?_⟩
    · rw [mem_nextEpoch, hms]
      exact List.mem_append_right _ (List.mem_singleton.mpr rfl)
    · rw [mem_nextEpoch, hms, List.mem_append, List.mem_singleton]
      refine or_iff_left fun heq => hm ?_
      rw [heq]
      rfl
  | removeMember caller target now =>
    obtain ⟨cm, tm, -, htm, -, -, hr⟩ := removeMemberIn_some h
    obtain ⟨hmem, hid⟩ := findMember_some htm
    cases hr
    refine ⟨rfl, ⟨tm, hmem, hid⟩, fun m hm => ?_, fun m hm => ?_⟩
    · rw [mem_nextEpoch] at hm
      simp only [Vec.retain, List.mem_filter] at hm
      simpa using hm.2
    · rw [mem_nextEpoch]
      simp only [Vec.retain, List.mem_filter]
      exact and_iff_left (decide_eq_true hm)
  | promote caller target role now =>
    simp only [Call.decision, promoteIn] at h
    obtain ⟨he, hb, hh, ho⟩ := changeRole_wrote h
    exact ⟨he, hb, hh, ho⟩
  | demote caller target role now =>
    simp only [Call.decision, demoteIn] at h
    obtain ⟨he, hb, hh, ho⟩ := changeRole_wrote h
    exact ⟨he, hb, hh, ho⟩

/-- A call that finds nothing to do finds its member there. -/
theorem decision_none_holds {c : Call} {man : GroupManifest} (h : c.decision man = .ok none) : c.Holds man := by
  obtain ⟨caller, new, addedAt, now, rfl, hex⟩ := decision_none h
  exact hex

/-- What a call brought about stays, unless a write undoes it. -/
theorem Call.Wrote.keeps {c d : Call} {man man' : GroupManifest} (h : d.Wrote man man') (hc : c.Holds man)
    (hun : ¬ d.Undoes c) : c.Holds man' := by
  by_cases hs : d.subject = c.subject
  · -- the same member: what `d` brought about is enough, or `d` had nothing to write
    have hb := h.before
    have hd := h.holds
    cases c <;> cases d <;> simp only [Call.Undoes, hs, true_and, not_true, not_false_iff] at hun <;>
      simp only [Call.Holds, Call.Before, Call.subject] at hc hb hd hs ⊢
    all_goals grind
  · have hne : ∀ m : GroupMember, m.identityId = c.subject → m.identityId ≠ d.subject := by
      intro m hm heq
      exact hs (heq.symm.trans hm)
    cases c with
    | addMember caller new addedAt now =>
      obtain ⟨m, hm, hid⟩ := hc
      exact ⟨m, (h.others m (hne m hid)).mpr hm, hid⟩
    | removeMember caller target now =>
      intro m hm hid
      exact hc m ((h.others m (hne m hid)).mp hm) hid
    | promote caller target role now =>
      obtain ⟨m, hm, hid, hrole⟩ := hc
      exact ⟨m, (h.others m (hne m hid)).mpr hm, hid, hrole⟩
    | demote caller target role now =>
      obtain ⟨m, hm, hid, hrole⟩ := hc
      exact ⟨m, (h.others m (hne m hid)).mpr hm, hid, hrole⟩

/-! ## Interleavings -/

/-- A membership call reads the manifest and goes on as its decision says. -/
theorem Call.rmw (c : Call) (g : GroupId) :
    Rmw .groups g.bytes.val (fun b man => decodeManifest b = .ok man) c.decision (c.prog g) := by
  rw [Call.prog_eq]
  refine ⟨_, rfl, fun b man hb => ?_⟩
  change Rmw.Rest _ _ _ _ ((Prog.lift (decodeManifest b)).bind _)
  rw [hb]
  simp only [Prog.lift, Prog.bind]
  cases c.decision man with
  | error e => rfl
  | ok o =>
    cases o with
    | none => rfl
    | some man' => exact ⟨_, _, rfl, decodeManifest_encodeManifest man', rfl⟩

variable [DecidableEq ι]

/-- The number of calls that wrote. -/
def writes (accesses : List (ι × Access)) : Nat := (accesses.filter (·.2 = .write)).length

/-- The manifest `man'` shows every call that succeeded: `man` is the one they
started from, `t` the calls as they are now, `accesses` what they did. -/
structure Reflected (calls : ι → Call) (man : GroupManifest) (t : Threads ι GroupError)
    (accesses : List (ι × Access)) (man' : GroupManifest) : Prop where
  epoch : man'.mlsEpoch.toNat = (man.mlsEpoch.toNat + writes accesses) % 2 ^ 64
  /-- The access of a call at which it took effect is its last. -/
  calls : ∀ pre i a post, accesses = pre ++ (i, a) :: post → (∀ x ∈ post, x.1 ≠ i) → t.result i = some (.ok ()) →
    (calls i).Holds man' ∨ ∃ x ∈ post, x.2 = .write ∧ (calls x.1).Undoes (calls i)

/-- **No lost update**, over every interleaving of any number of membership
calls on one group, where no call writes between another's read and its
write: whatever a call that returned `Ok` brought about is there unless a
later write undid it, and the epoch has advanced by the number of writes. -/
theorem no_lost_update {db : ZeroDb} {g : GroupId} {man : GroupManifest} (hman : manifestAt db g = .ok man)
    (calls : ι → Call) (sched : List ι)
    (hu : Cell.Undisturbed ((concurrently g db calls).accesses sched)) :
    ∃ man', manifestAt ((concurrently g db calls).run sched).state g = .ok man' ∧
      Reflected calls man ((concurrently g db calls).run sched) ((concurrently g db calls).accesses sched) man' := by
  obtain ⟨b, hb, hdec⟩ := manifestAt_eq_ok.mp hman
  obtain ⟨hsim, hacc⟩ := Rmw.run_cell (t := concurrently g db calls) (fun i => (calls i).rmw g) hb hdec sched
  rw [hacc] at hu ⊢
  obtain ⟨b', hb', hdec'⟩ := hsim.stored
  refine ⟨_, manifestAt_eq_ok.mpr ⟨b', hb', hdec'⟩, ?_, ?_⟩
  · have h := Cell.undisturbed_inv
      (I := fun ws m => m.mlsEpoch.toNat = (man.mlsEpoch.toNat + ws.length) % 2 ^ 64) ?_ ?_ hu
    · rw [List.length_map] at h
      exact h
    · exact (Nat.mod_eq_of_lt man.mlsEpoch.toNat_lt).symm
    · intro ws i m new hm hnew
      have hone : (1 : UInt64).toNat = 1 := rfl
      rw [(decision_wrote hnew).epoch, UInt64.toNat_add, hm, hone, List.length_append, List.length_singleton]
      omega
  · intro pre i a post htr hlast hres
    exact Cell.reflects (fun i => (calls i).Holds) (fun j i => (calls j).Undoes (calls i))
      (fun i v new h => (decision_wrote h).holds) (fun i v h => decision_none_holds h)
      (fun i j v new h hi hun => (decision_wrote h).keeps hi hun) hu htr hlast ((hsim.result_iff i _).mp hres)

/-- The Owner of `solo` adds `id(2)` and `id(3)`. -/
def twoAdds : Bool → Call
  | false => .addMember ⟨Arr.fill 16 1⟩ ⟨Arr.fill 16 2⟩ 6 6
  | true => .addMember ⟨Arr.fill 16 1⟩ ⟨Arr.fill 16 3⟩ 7 7

/-- One after the other, both additions are there. -/
theorem no_lost_update_in_turn :
    let g : GroupId := ⟨Arr.fill 16 9⟩
    let t := concurrently g (ZeroDb.empty.put .groups g.bytes.val (encodeManifest (solo g))) twoAdds
    let sched := [false, false, true, true]
    t.accesses sched = [(false, .read), (false, .write), (true, .read), (true, .write)] ∧
      ∃ man', manifestAt (t.run sched).state g = .ok man' ∧
        Reflected twoAdds (solo g) (t.run sched) (t.accesses sched) man' := by
  intro g t sched
  have hacc : t.accesses sched = [(false, .read), (false, .write), (true, .read), (true, .write)] := by decide +kernel
  refine ⟨hacc, no_lost_update (manifestAt_put_self _ _ _) twoAdds sched ?_⟩
  change Cell.Undisturbed (t.accesses sched)
  rw [hacc]
  have hlast : Cell.Undisturbed [(true, .read), (true, .write)] := Cell.Undisturbed.nil.in_turn (by simp)
  exact hlast.in_turn (by simp)

/-- Both additions read before either writes: both return `Ok`, `id(2)` is
not a member although nobody removed it, and the epoch went from 3 to 4. -/
theorem concurrent_add_lost :
    let g : GroupId := ⟨Arr.fill 16 9⟩
    let t := concurrently g (ZeroDb.empty.put .groups g.bytes.val (encodeManifest (solo g))) twoAdds
    let sched := [false, true, false, true]
    (t.run sched).result false = some (.ok ()) ∧ (t.run sched).result true = some (.ok ()) ∧
      (manifestAt (t.run sched).state g).map (fun man => (man.members.val.map (·.identityId), man.mlsEpoch)) =
        .ok ([⟨Arr.fill 16 1⟩, ⟨Arr.fill 16 3⟩], 4) ∧
      ¬ ∃ man', manifestAt (t.run sched).state g = .ok man' ∧
        Reflected twoAdds (solo g) (t.run sched) (t.accesses sched) man' := by
  intro g t sched
  have hman : (manifestAt (t.run sched).state g).map (fun man => (man.members.val.map (·.identityId), man.mlsEpoch)) =
      .ok ([⟨Arr.fill 16 1⟩, ⟨Arr.fill 16 3⟩], 4) := by decide +kernel
  refine ⟨by decide +kernel, by decide +kernel, hman, fun ⟨man', hman', hrefl⟩ => ?_⟩
  have hwrites : writes (t.accesses sched) = 2 := by decide +kernel
  have hepoch := hrefl.epoch
  rw [hman'] at hman
  simp only [Except.map, Except.ok.injEq, Prod.mk.injEq] at hman
  rw [hman.2, hwrites] at hepoch
  exact absurd hepoch (by decide)

end ZeroSdk.Group
