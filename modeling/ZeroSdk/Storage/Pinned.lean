/-
One entry among many writers. `Pinned` says that the entry under one key is
there, with a value of some kind, and that the rest of the store is as it
should be. Whoever reads that key finds such a value, whatever happened since
the last look, and a write elsewhere does not matter; so to keep the entry
pinned it is enough that each write to its key is of that kind again.
-/
import ZeroSdk.Storage.Shared

namespace ZeroSdk
open Prog
open ZeroDb (handleAt)

/-- Every entry is a `P`, and the one under `key` is there and is a `K`. -/
structure Pinned (P : Cf → Bytes → Bytes → Prop) (cf : Cf) (key : Bytes) (K : Bytes → Prop) (db : ZeroDb) : Prop where
  contents : Contents P db
  held : ∃ v, db.get cf key = some v ∧ K v

variable {P : Cf → Bytes → Bytes → Prop} {cf cf' : Cf} {key key' value : Bytes} {K : Bytes → Prop} {db : ZeroDb}

theorem Pinned.put (h : Pinned P cf key K db) (hP : P cf' key' value) (hK : cf' = cf → key' = key → K value) :
    Pinned P cf key K (db.put cf' key' value) := by
  refine ⟨h.contents.put hP, ?_⟩
  by_cases heq : cf = cf' ∧ key = key'
  · exact ⟨value, by rw [ZeroDb.get_put, if_pos heq], hK heq.1.symm heq.2.symm⟩
  · rw [ZeroDb.get_put, if_neg heq]
    exact h.held

/-! ## What each way of reaching the store returns -/

theorem pinned_getRaw : (getRaw cf' key').Safe handleAt (Pinned P cf key K) (Returns StorageError.Expected fun b =>
    (∀ v, b = some v → P cf' key' v) ∧ (cf' = cf → key' = key → ∃ v, b = some v ∧ K v)) := by
  intro f db hdb
  cases f with
  | some f => exact ⟨hdb, trivial⟩
  | none =>
    refine ⟨hdb, fun v hv => hdb.contents cf' key' v hv, ?_⟩
    rintro rfl rfl
    exact hdb.held

theorem pinned_getCf {ε : Type} {E : ε → Prop} : (getCf cf' key' : DbProg ε _).Safe handleAt (Pinned P cf key K)
    (Returns E fun b => (∀ v, b = .ok (some v) → P cf' key' v) ∧
      ∀ o, b = .ok o → cf' = cf → key' = key → ∃ v, o = some v ∧ K v) := by
  intro f db hdb
  cases f with
  | some f =>
    refine ⟨hdb, fun v hv => ?_, fun o ho => ?_⟩
    · cases hv
    · cases ho
  | none =>
    refine ⟨hdb, fun v hv => hdb.contents cf' key' v (Except.ok.inj hv), fun o ho hcf hkey => ?_⟩
    subst hcf hkey
    obtain ⟨v, hv, hK⟩ := hdb.held
    exact ⟨v, (Except.ok.inj ho).symm.trans hv, hK⟩

theorem pinned_putRaw (hP : P cf' key' value) (hK : cf' = cf → key' = key → K value) :
    (putRaw cf' key' value).Safe handleAt (Pinned P cf key K) (Returns StorageError.Expected fun _ => True) := by
  intro f db hdb
  cases f with
  | some f => exact ⟨hdb, trivial⟩
  | none => exact ⟨hdb.put hP hK, trivial⟩

theorem pinned_iteratorCf {ε : Type} {E : ε → Prop} {mode : IteratorMode} :
    (iteratorCf cf' mode : DbProg ε _).Safe handleAt (Pinned P cf key K) (Returns E fun _ => True) := by
  intro f db hdb
  cases f with
  | some f => exact ⟨hdb, trivial⟩
  | none => exact ⟨hdb, trivial⟩

theorem pinned_of_within {ε α : Type} {A : Set Cf} {Q : Except ε α → Prop} {p : DbProg ε α}
    (hp : p.Within StoreOp.cf A) (hcf : cf ∉ A) (hsafe : p.Safe handleAt (Contents P) Q) :
    p.Safe handleAt (Pinned P cf key K) Q := by
  have hheld : p.Safe handleAt (fun db => ∃ v, db.get cf key = some v ∧ K v) fun _ => True := by
    refine hp.safe fun f o db ho hdb => ?_
    have hne : cf ≠ o.cf := fun heq => hcf (heq ▸ ho)
    have hsame := placed_handleAt.elsewhere f o db cf hne
    simp only [ZeroDb.get] at hdb ⊢
    rw [hsame]
    exact hdb
  refine ((hsafe.and hheld).mono fun r hr => hr.1).congr fun db => ?_
  exact ⟨fun h => ⟨h.1, h.2⟩, fun h => ⟨h.contents, h.held⟩⟩

end ZeroSdk
