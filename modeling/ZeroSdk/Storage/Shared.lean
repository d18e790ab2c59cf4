/-
The store as calls share it: each turn is one RocksDB operation, and the
turn says whether RocksDB fails at it (`ZeroDb.handleAt`). A schedule of such
turns covers every interleaving, every pattern of failures and, as it may
end anywhere, a process that is killed between two operations.

An operation is at the column family it names (`placed_handleAt`). What is
in the store is described entry by entry: `Contents P` says that every entry
of every column family is a `P`, and the rules below say what each way of
reaching the store returns as long as this holds, and keeps it.
-/
import ZeroSdk.Lib.Guarantee
import ZeroSdk.Storage.Faults

namespace ZeroSdk
open Prog

/-- The column family an operation is on. -/
def StoreOp.cf : StoreOp → Cf
  | .get cf _ | .put cf _ _ | .delete cf _ | .iterator cf _ => cf

/-- An operation that fails or does not. -/
def ZeroDb.handleAt : Option Fault → Handler rocks ZeroDb
  | none => handle
  | some f => fun o db => (o.failed db f, db)

open ZeroDb (handleAt)

theorem placed_handleAt : Placed handleAt StoreOp.cf fun cf db => db.cf cf where
  here f o db db' h := by
    have hget : ∀ key, db.get o.cf key = db'.get o.cf key := fun key => by rw [ZeroDb.get, h, ZeroDb.get]
    have hitems : ∀ mode, db.items o.cf mode = db'.items o.cf mode := fun mode => by
      cases mode <;> simp only [ZeroDb.items, h]
    cases f with
    | some f =>
      cases o with
      | iterator cf mode =>
        simp only [StoreOp.cf] at hitems h
        exact ⟨by simp only [handleAt, StoreOp.failed, hitems], h⟩
      | _ => exact ⟨rfl, h⟩
    | none =>
      cases o with
      | get cf key => exact ⟨congrArg Except.ok (hget key), h⟩
      | put cf key v =>
        refine ⟨rfl, ?_⟩
        simp only [StoreOp.cf] at h ⊢
        change (db.put cf key v).cf cf = (db'.put cf key v).cf cf
        rw [ZeroDb.cf_put_self, ZeroDb.cf_put_self, h]
      | delete cf key =>
        refine ⟨rfl, ?_⟩
        simp only [StoreOp.cf] at h ⊢
        change (if cf = cf then _ else _) = (if cf = cf then _ else _)
        rw [if_pos rfl, if_pos rfl, h]
      | iterator cf mode =>
        simp only [StoreOp.cf] at hitems h
        exact ⟨by simp only [handleAt, ZeroDb.handle, hitems], h⟩
  elsewhere f o db cf h := by
    cases f with
    | some f => rfl
    | none =>
      cases o with
      | put cf' key v => exact db.cf_put_other _ _ h
      | delete cf' key => exact db.cf_delete_other _ h
      | _ => rfl

/-! ## Footprints -/

section Within
variable {ε : Type} {A : Set Cf} {cf : Cf} (h : cf ∈ A)
include h

theorem within_putRaw (key value : Bytes) : (putRaw cf key value).Within StoreOp.cf A :=
  (Within.call h).bind fun _ => .lift _

theorem within_getRaw (key : Bytes) : (getRaw cf key).Within StoreOp.cf A := (Within.call h).bind fun _ => .lift _

theorem within_deleteRaw (key : Bytes) : (deleteRaw cf key).Within StoreOp.cf A :=
  (Within.call h).bind fun _ => .lift _

theorem within_getCf (key : Bytes) : (getCf cf key : DbProg ε _).Within StoreOp.cf A := .call h

theorem within_iteratorCf (mode : IteratorMode) : (iteratorCf cf mode : DbProg ε _).Within StoreOp.cf A := .call h

theorem within_prefixScanRaw (pre : Bytes) : (prefixScanRaw cf pre).Within StoreOp.cf A :=
  (within_iteratorCf h _).bind fun _ => .lift _

end Within

/-! ## Stores described entry by entry -/

/-- Every entry of every column family is a `P`. -/
def Contents (P : Cf → Bytes → Bytes → Prop) (db : ZeroDb) : Prop := ∀ cf k v, db.get cf k = some v → P cf k v

/-- The errors that do not say that a stored value is unreadable. -/
def StorageError.Expected : StorageError → Prop
  | .codec _ => False
  | _ => True

/-- The order of an iterator's keys, and how far they reach. -/
def IteratorMode.Before : IteratorMode → Bytes → Bytes → Prop
  | .reverse _, k, k' => k' < k
  | _, k, k' => k < k'

def IteratorMode.Reaches : IteratorMode → Bytes → Prop
  | .start, _ => True
  | .forward lo, k => lo ≤ k
  | .reverse hi, k => k ≤ hi

/-- What an iterator yields: entries that are `P`s, in its order. -/
structure Scanned (P : Cf → Bytes → Bytes → Prop) (cf : Cf) (mode : IteratorMode)
    (items : List (Except RocksError (Bytes × Bytes))) : Prop where
  entry : ∀ k v, .ok (k, v) ∈ items → P cf k v ∧ mode.Reaches k
  sorted : items.Pairwise fun x y => ∀ e e', x = .ok e → y = .ok e' → mode.Before e.1 e'.1

section Contents
variable {P : Cf → Bytes → Bytes → Prop} {cf : Cf} {mode : IteratorMode} {db : ZeroDb}

theorem Contents.empty : Contents P ZeroDb.empty := by
  intro cf k v hv
  cases hv

theorem Contents.put (h : Contents P db) {key value : Bytes} (hP : P cf key value) : Contents P (db.put cf key value) := by
  intro cf' k v hv
  rw [ZeroDb.get_put] at hv
  split at hv
  · next heq =>
    cases hv
    rw [heq.1, heq.2]
    exact hP
  · exact h cf' k v hv

theorem Contents.delete (h : Contents P db) (key : Bytes) : Contents P (db.delete cf key) := by
  intro cf' k v hv
  rw [ZeroDb.get_delete] at hv
  split at hv
  · cases hv
  · exact h cf' k v hv

theorem Scanned.tail {x : Except RocksError (Bytes × Bytes)} {items : List (Except RocksError (Bytes × Bytes))}
    (h : Scanned P cf mode (x :: items)) : Scanned P cf mode items :=
  ⟨fun k v hkv => h.entry k v (List.mem_cons_of_mem _ hkv), (List.pairwise_cons.mp h.sorted).2⟩

theorem Scanned.head {k v : Bytes} {items : List (Except RocksError (Bytes × Bytes))}
    (h : Scanned P cf mode (.ok (k, v) :: items)) : P cf k v := (h.entry k v List.mem_cons_self).1

theorem Scanned.before {k v k' v' : Bytes} {items : List (Except RocksError (Bytes × Bytes))}
    (h : Scanned P cf mode (.ok (k, v) :: items)) (hmem : .ok (k', v') ∈ items) : mode.Before k k' :=
  (List.pairwise_cons.mp h.sorted).1 _ hmem _ _ rfl rfl

/-- An iterator over a database, before RocksDB fails. -/
theorem scanned_items (h : Contents P db) (cf : Cf) (mode : IteratorMode) :
    Scanned P cf mode ((db.items cf mode).map .ok) := by
  have hentry : ∀ k v, (k, v) ∈ (db.cf cf).entries → P cf k v := fun k v hkv => h cf k v (OrdMap.mem_entries.mp hkv)
  have hlt : ∀ p : Bytes × Bytes → Bool, ((db.cf cf).entries.filter p).Pairwise (·.1 < ·.1) :=
    fun p => (db.cf cf).sorted.filter p
  refine ⟨fun k v hkv => ?_, ?_⟩
  · obtain ⟨e, he, heq⟩ := List.mem_map.mp hkv
    cases heq
    cases mode with
    | start => exact ⟨hentry k v he, trivial⟩
    | forward lo =>
      obtain ⟨hmem, hlo⟩ := List.mem_filter.mp he
      exact ⟨hentry k v hmem, of_decide_eq_true (p := lo ≤ k) hlo⟩
    | reverse hi =>
      obtain ⟨hmem, hhi⟩ := List.mem_filter.mp (List.mem_reverse.mp he)
      exact ⟨hentry k v hmem, of_decide_eq_true (p := k ≤ hi) hhi⟩
  · rw [List.pairwise_map]
    refine List.Pairwise.imp (R := fun a b : Bytes × Bytes => mode.Before a.1 b.1) ?_ ?_
    · intro a b hab e e' ha hb
      cases ha
      cases hb
      exact hab
    · cases mode with
      | start => exact (db.cf cf).sorted
      | forward lo => exact hlt _
      | reverse hi => exact List.pairwise_reverse.mpr (hlt _)

/-- However an iterator ends. -/
theorem scanned_handleAt (h : Contents P db) (f : Option Fault) (cf : Cf) (mode : IteratorMode) :
    Scanned P cf mode (handleAt f (.iterator cf mode) db).1 := by
  have hall := scanned_items h cf mode
  cases f with
  | none => exact hall
  | some f =>
    change Scanned P cf mode (((db.items cf mode).map .ok).take f.after ++ [.error f.error])
    refine ⟨fun k v hkv => ?_, ?_⟩
    · rcases List.mem_append.mp hkv with hkv | hkv
      · exact hall.entry k v (List.mem_of_mem_take hkv)
      · cases List.mem_singleton.mp hkv
    · refine List.pairwise_append.mpr ⟨hall.sorted.sublist (List.take_sublist _ _), List.pairwise_singleton _ _, ?_⟩
      intro x _ y hy e e' _ heq
      rw [List.mem_singleton.mp hy] at heq
      cases heq

/-! ### What each way of reaching the store returns -/

variable {key value pre : Bytes}

theorem safe_getRaw : (getRaw cf key).Safe handleAt (Contents P)
    (Returns StorageError.Expected fun b => ∀ v, b = some v → P cf key v) := by
  intro f db hdb
  cases f with
  | some f => exact ⟨hdb, trivial⟩
  | none => exact ⟨hdb, fun v hv => hdb cf key v hv⟩

theorem safe_putRaw (hP : P cf key value) : (putRaw cf key value).Safe handleAt (Contents P)
    (Returns StorageError.Expected fun _ => True) := by
  intro f db hdb
  cases f with
  | some f => exact ⟨hdb, trivial⟩
  | none => exact ⟨hdb.put hP, trivial⟩

theorem safe_deleteRaw : (deleteRaw cf key).Safe handleAt (Contents P)
    (Returns StorageError.Expected fun _ => True) := by
  intro f db hdb
  cases f with
  | some f => exact ⟨hdb, trivial⟩
  | none => exact ⟨hdb.delete key, trivial⟩

theorem safe_getCf {ε : Type} {E : ε → Prop} : (getCf cf key : DbProg ε _).Safe handleAt (Contents P)
    (Returns E fun b => ∀ v, b = .ok (some v) → P cf key v) := by
  intro f db hdb
  cases f with
  | some f => exact ⟨hdb, fun v hv => by cases hv⟩
  | none => exact ⟨hdb, fun v hv => hdb cf key v (Except.ok.inj hv)⟩

theorem safe_iteratorCf {ε : Type} {E : ε → Prop} : (iteratorCf cf mode : DbProg ε _).Safe handleAt (Contents P)
    (Returns E (Scanned P cf mode)) := by
  intro f db hdb
  refine ⟨?_, scanned_handleAt hdb f cf mode⟩
  cases f with
  | some f => exact hdb
  | none => exact hdb

/-- What the loops over an iterator have in common: the values are decoded
one by one until a key is not a `p`. -/
def decodeWhile {ε α : Type} (p : Bytes → Bool) (dec : Bytes → Except ε α) (fail : RocksError → ε) :
    List (Except RocksError (Bytes × Bytes)) → Except ε (List α)
  | [] => .ok []
  | .error e :: _ => .error (fail e)
  | .ok (k, v) :: items =>
    if p k then
      match dec v with
      | .error e => .error e
      | .ok a => (decodeWhile p dec fail items).map (a :: ·)
    else .ok []

/-- Values read off in an order of their keys; `R k a` says that `a` is what
is under `k`. -/
structure Read {α : Type} (R : Bytes → α → Prop) (mode : IteratorMode) (l : List α) : Prop where
  mem : ∀ a ∈ l, ∃ k, R k a
  sorted : l.Pairwise fun a b => ∃ k k', R k a ∧ R k' b ∧ mode.Before k k'

theorem Read.nil {α : Type} {R : Bytes → α → Prop} : Read R mode [] := ⟨fun _ h => (List.not_mem_nil h).elim, List.Pairwise.nil⟩

/-- Where every entry reached decodes, only RocksDB makes the loop fail, and
it returns what the entries are. -/
theorem decodeWhile_read {ε α : Type} {E : ε → Prop} {R : Bytes → α → Prop} {p : Bytes → Bool}
    {dec : Bytes → Except ε α} {fail : RocksError → ε} {items : List (Except RocksError (Bytes × Bytes))}
    (h : Scanned P cf mode items) (hfail : ∀ e, E (fail e))
    (hdec : ∀ k v, P cf k v → mode.Reaches k → p k = true → ∃ a, dec v = .ok a ∧ R k a) :
    Returns E (Read R mode) (decodeWhile p dec fail items) ∧
      ∀ l, decodeWhile p dec fail items = .ok l → ∀ a ∈ l, ∃ k v, .ok (k, v) ∈ items ∧ R k a := by
  induction items with
  | nil =>
    refine ⟨.nil, fun l hl a ha => ?_⟩
    cases hl
    cases ha
  | cons x items ih =>
    cases x with
    | error e => exact ⟨hfail e, fun l hl => by cases hl⟩
    | ok e =>
      obtain ⟨k, v⟩ := e
      obtain ⟨hret, hsub⟩ := ih h.tail
      rw [decodeWhile]
      split
      · next hk =>
        obtain ⟨hP, hreach⟩ := h.entry k v List.mem_cons_self
        obtain ⟨a, ha, hR⟩ := hdec k v hP hreach hk
        rw [ha]
        simp only
        cases hloop : decodeWhile p dec fail items with
        | error e =>
          rw [hloop] at hret
          exact ⟨hret, fun l hl => by cases hl⟩
        | ok l =>
          rw [hloop] at hret
          have hmem := hsub l hloop
          refine ⟨⟨fun b hb => ?_, List.pairwise_cons.mpr ⟨fun b hb => ?_, hret.sorted⟩⟩, fun l' hl' b hb => ?_⟩
          · rcases List.mem_cons.mp hb with rfl | hb
            · exact ⟨k, hR⟩
            · exact hret.mem b hb
          · obtain ⟨k', v', hkv, hR'⟩ := hmem b hb
            exact ⟨k, k', hR, hR', h.before hkv⟩
          · cases hl'
            rcases List.mem_cons.mp hb with rfl | hb
            · exact ⟨k, v, List.mem_cons_self, hR⟩
            · obtain ⟨k', v', hkv, hR'⟩ := hmem b hb
              exact ⟨k', v', List.mem_cons_of_mem _ hkv, hR'⟩
      · refine ⟨.nil, fun l hl a ha => ?_⟩
        cases hl
        cases ha

/-- A loop over the whole of an iterator, whose entries up to the first key
that is no `p` are the images of values. -/
theorem decodeWhile_ok {ε α : Type} {p : Bytes → Bool} {dec : Bytes → Except ε α} {fail : RocksError → ε}
    {f : α → Bytes × Bytes} (hdec : ∀ a, dec (f a).2 = .ok a) {items : KvPairs} {l : List α}
    (h : (items.takeWhile fun e => p e.1) = l.map f) : decodeWhile p dec fail (items.map .ok) = .ok l := by
  induction items generalizing l with
  | nil =>
    cases l with
    | nil => rfl
    | cons a l => cases h
  | cons e items ih =>
    obtain ⟨k, v⟩ := e
    rw [List.map_cons, decodeWhile]
    by_cases hk : p k = true
    · simp only [List.takeWhile_cons, hk, if_true] at h
      cases l with
      | nil => cases h
      | cons a l =>
        obtain ⟨he, hrest⟩ := List.cons.inj h
        have hv : dec v = .ok a := by rw [← hdec a, ← he]
        rw [if_pos hk, hv, ih hrest]
        rfl
    · simp only [List.takeWhile_cons, hk] at h
      cases l with
      | nil => rw [if_neg hk]
      | cons a l => cases h

/-- What a prefix scan returns: entries under the prefix, ascending. -/
structure Found (P : Cf → Bytes → Bytes → Prop) (cf : Cf) (pre : Bytes) (pairs : KvPairs) : Prop where
  entry : ∀ k v, (k, v) ∈ pairs → P cf k v ∧ pre <+: k
  sorted : pairs.Pairwise (·.1 < ·.1)

theorem Found.nil : Found P cf pre [] := ⟨fun _ _ h => (List.not_mem_nil h).elim, List.Pairwise.nil⟩

theorem prefixScanLoop_found {items : List (Except RocksError (Bytes × Bytes))}
    (h : Scanned P cf (.forward pre) items) :
    Returns StorageError.Expected (Found P cf pre) (prefixScanLoop pre items) ∧
      ∀ pairs, prefixScanLoop pre items = .ok pairs → ∀ e ∈ pairs, .ok e ∈ items := by
  induction items with
  | nil =>
    refine ⟨Found.nil, fun pairs hp e he => ?_⟩
    cases hp
    cases he
  | cons x items ih =>
    cases x with
    | error e => exact ⟨trivial, fun pairs hp => by cases hp⟩
    | ok e =>
      obtain ⟨k, v⟩ := e
      obtain ⟨hret, hsub⟩ := ih h.tail
      rw [prefixScanLoop]
      split
      · next hpre =>
        cases hloop : prefixScanLoop pre items with
        | error e =>
          rw [hloop] at hret
          exact ⟨hret, fun pairs hp => by cases hp⟩
        | ok pairs =>
          rw [hloop] at hret
          have hmem := hsub pairs hloop
          refine ⟨⟨fun k' v' hkv => ?_, List.pairwise_cons.mpr ⟨fun e he => ?_, hret.sorted⟩⟩, fun pairs' hp e he => ?_⟩
          · rcases List.mem_cons.mp hkv with heq | hkv
            · cases heq
              exact ⟨h.head, List.isPrefixOf_iff_prefix.mp hpre⟩
            · exact hret.entry k' v' hkv
          · exact h.before (hmem e he)
          · cases hp
            rcases List.mem_cons.mp he with rfl | he
            · exact List.mem_cons_self
            · exact List.mem_cons_of_mem _ (hmem e he)
      · refine ⟨Found.nil, fun pairs hp e he => ?_⟩
        cases hp
        cases he

theorem safe_prefixScanRaw : (prefixScanRaw cf pre).Safe handleAt (Contents P)
    (Returns StorageError.Expected (Found P cf pre)) :=
  safe_iteratorCf.andThen fun _ hitems => .ret (prefixScanLoop_found hitems).1

end Contents

end ZeroSdk
