/-
Paging through a group's history. A page is ordered by time, its cursor
compares ids: `list_messages` says UUIDv7 ids make the two agree, and for
messages received from others nothing does. Passing the last id of each
page as the next cursor then loses messages (`listMessages_skips`) or
returns them again. `listMessages_paging_iff` says exactly when it does
not: at the end of every page the id must be below those of all messages
already returned and above those of all messages still to come.
-/
import ZeroSdk.Group.Log
import ZeroSdk.Lib.Paging

namespace ZeroSdk.Group

/-- Pages fetched one after the other, each from the last id of the one before. -/
def pageThrough (db : ZeroDb) (g : GroupId) (n : Nat) : (fuel : Nat) → Option (List (List GroupMessage)) := fun fuel =>
  Paging.walk (·.id) (fun before => (db.run (listMessages g before n)).1) fuel none

/-- Messages with distinct ids have one order, so filtering commutes with sorting. -/
theorem insertionSort_filter {msgs : List GroupMessage} (hnd : (msgs.map (·.id)).Nodup) (p : GroupMessage → Bool) :
    (msgs.filter p).insertionSort msgOrder = (msgs.insertionSort msgOrder).filter p := by
  have hperm := List.perm_insertionSort msgOrder msgs
  have hl : ((msgs.filter p).insertionSort msgOrder).Pairwise msgOrder := List.pairwise_insertionSort msgOrder _
  have hr : ((msgs.insertionSort msgOrder).filter p).Pairwise msgOrder :=
    (List.pairwise_insertionSort msgOrder _).sublist List.filter_sublist
  refine List.Perm.eq_of_pairwise (fun a b ha hb hab hba => ?_) hl hr
    ((List.perm_insertionSort msgOrder _).trans (hperm.filter p).symm)
  have ha' := (List.mem_filter.mp ((List.perm_insertionSort msgOrder _).mem_iff.mp ha)).1
  have hb' := hperm.mem_iff.mp (List.mem_filter.mp hb).1
  exact List.inj_on_of_nodup_map hnd ha' hb' (msgOrder_antisymm hab hba)

/-- A page of `list_messages` is a page of the sorted messages. -/
theorem listMessages_page {db : ZeroDb} {g : GroupId} {msgs : List GroupMessage} (h : Stores db g msgs)
    (hnd : (msgs.map (·.id)).Nodup) (n : Nat) (before : Option GroupMessageId) :
    (db.run (listMessages g before n)).1 =
      .ok (Paging.page (·.id) (msgs.insertionSort msgOrder) n before) := by
  rw [run_listMessages h, insertionSort_filter hnd]
  cases before with
  | none =>
    have hall : (msgs.insertionSort msgOrder).filter (isBefore none) = msgs.insertionSort msgOrder :=
      List.filter_eq_self.mpr fun _ _ => rfl
    rw [hall]
    rfl
  | some c =>
    have hbelow : (msgs.insertionSort msgOrder).filter (isBefore (some c)) =
        Paging.below (·.id) (msgs.insertionSort msgOrder) (some c) := by
      refine List.filter_congr fun m _ => ?_
      simp only [isBefore, ← not_le, decide_not]
    rw [hbelow]
    rfl

theorem Newer.ne {a b : GroupMessage} (h : Newer a b) : a ≠ b := by
  rintro rfl
  rcases h with h | ⟨-, h⟩
  · exact UInt64.lt_irrefl _ h
  · exact lt_irrefl _ h

theorem Newer.asymm {a b : GroupMessage} (hab : Newer a b) (hba : Newer b a) : False := by
  rcases hab with hab | ⟨hab, hid⟩
  · rcases hba with hba | ⟨hba, -⟩
    · exact UInt64.lt_irrefl _ (UInt64.lt_trans hab hba)
    · exact UInt64.lt_irrefl _ (hba ▸ hab)
  · rcases hba with hba | ⟨-, hid'⟩
    · exact UInt64.lt_irrefl _ (hab ▸ hba)
    · exact lt_irrefl _ (lt_trans hid hid')

/-- **Group history paging.** Let `l` be the messages a run stored for `g`,
latest first. Paging through them with any page size returns each exactly
once if and only if every message that ends a page has an id below those of
all messages before it in `l` and above those of all messages after it. -/
theorem listMessages_paging_iff {db : ZeroDb} (h : NoMessages db) (ops : List Op) (hf : FreshIds db ops) (g : GroupId)
    {l : List GroupMessage} (hl : l.Pairwise Newer) (hmem : ∀ m, m ∈ l ↔ Logged (runOps db ops).2 g m) {n : Nat}
    (hn : 1 ≤ n) :
    (∃ fuel pages, pageThrough (runOps db ops).1 g n fuel = some pages ∧ pages.flatten.Perm l) ↔
      Paging.Aligned (fun m => m.id) n l := by
  obtain ⟨msgs, hstores, hnd, hmsgs⟩ := run_stores h ops hf g
  have hperm := List.perm_insertionSort msgOrder msgs
  have hl' := insertionSort_newer hnd
  -- both lists enumerate the same messages in the same strict order
  have hsame : l = msgs.insertionSort msgOrder := by
    refine List.Perm.eq_of_pairwise (fun a b _ _ hab hba => (hab.asymm hba).elim) hl hl'
      ((List.perm_ext_iff_of_nodup (hl.imp Newer.ne) (hl'.imp Newer.ne)).mpr fun m => ?_)
    rw [hmem, hperm.mem_iff, hmsgs]
  subst hsame
  refine Paging.walk_complete_iff hn (listMessages_page hstores hnd n) (hl.imp Newer.ne) fun a ha b hb hid => ?_
  exact List.inj_on_of_nodup_map hnd (hperm.mem_iff.mp ha) (hperm.mem_iff.mp hb) hid

/-- A received message of group `g` with every byte of its id `b`. -/
def received (g : GroupId) (b : UInt8) (createdAtMs : UInt64) : GroupMessage :=
  ⟨⟨Arr.fill 16 b⟩, g, ⟨Arr.fill 16 2⟩, ⟨Arr.fill 16 0⟩, Str.empty, 0, createdAtMs, .sent⟩

/-- Two messages received for a group, the later one with the greater id. -/
theorem listMessages_paging_received :
    let g : GroupId := ⟨Arr.fill 16 9⟩
    let m₁ := received g 1 5
    let m₂ := received g 2 10
    let ops := [Op.create Str.empty ⟨[⟨Arr.fill 16 1⟩], by decide⟩ g 5, .receive m₁, .receive m₂]
    ∃ fuel pages, pageThrough (runOps ZeroDb.empty ops).1 g 1 fuel = some pages ∧ pages.flatten.Perm [m₂, m₁] := by
  intro g m₁ m₂ ops
  have hf : FreshIds ZeroDb.empty ops := by
    intro pre g' sender machine text id ts post hops
    have hmem : Op.send g' sender machine text id ts ∈ ops := by rw [hops]; simp
    simp [ops] at hmem
  have hev : (runOps ZeroDb.empty ops).2 = [.stored m₁, .stored m₂] := by decide +kernel
  have hmem : ∀ m, m ∈ [m₂, m₁] ↔ Logged (runOps ZeroDb.empty ops).2 g m := by
    intro m
    rw [hev]
    constructor
    · intro hm
      simp only [List.mem_cons, List.not_mem_nil, or_false] at hm
      rcases hm with rfl | rfl
      · exact ⟨m₂, [], by decide, rfl⟩
      · exact ⟨m₁, [.stored m₂], by decide, rfl⟩
    · intro ⟨first, since, hfirst, hm⟩
      simp only [firstStored] at hfirst
      split at hfirst
      · obtain ⟨rfl, rfl⟩ := Prod.mk.inj (Option.some.inj hfirst)
        rw [hm]
        simp [receiptsFor]
      split at hfirst
      · obtain ⟨rfl, rfl⟩ := Prod.mk.inj (Option.some.inj hfirst)
        rw [hm]
        simp [receiptsFor]
      · cases hfirst
  have hl : [m₂, m₁].Pairwise Newer := by
    refine List.pairwise_cons.mpr ⟨fun b hb => ?_, List.pairwise_singleton _ _⟩
    rw [List.mem_singleton.mp hb]
    exact .inl (by decide)
  exact (listMessages_paging_iff (fun _ _ _ => rfl) ops hf g hl hmem (Nat.le_refl 1)).mpr
    (Paging.aligned_of_descending (by decide) 1)

/-- Two messages received for a group: the one with the smaller id is the
later one. With pages of one, the walk ends after it. -/
theorem listMessages_skips :
    let g : GroupId := ⟨Arr.fill 16 9⟩
    let m₁ := received g 1 10
    let m₂ := received g 2 5
    let ops := [Op.create Str.empty ⟨[⟨Arr.fill 16 1⟩], by decide⟩ g 5, .receive m₁, .receive m₂]
    let db := (runOps ZeroDb.empty ops).1
    (db.run (getMessage g m₂.id)).1 = .ok (some m₂) ∧
      ¬ ∃ fuel pages, pageThrough db g 1 fuel = some pages ∧ m₂ ∈ pages.flatten := by
  intro g m₁ m₂ ops db
  have hstored : (db.run (getMessage g m₂.id)).1 = .ok (some m₂) := by decide +kernel
  have hpages : pageThrough db g 1 2 = some [[m₁]] := by decide +kernel
  refine ⟨hstored, ?_⟩
  intro ⟨fuel, pages, hwalk, hm⟩
  rw [← Paging.walk_unique hpages hwalk] at hm
  revert hm
  decide

end ZeroSdk.Group
