/-
`zero-storage`'s `ZeroDb`: seven column families, each a map from byte
strings to byte strings in bytewise order, reached through four RocksDB
operations (point read, write, delete, and an iterator over a snapshot).

Every function of the repository that touches the store is a program over
these operations (`DbProg`), so the same text is run against a database
(`ZeroDb.run`, where RocksDB itself does not fail) or with failures at any
operation. The error of a failed operation is mapped where the source maps
it, and an iterator yields its items one by one, each possibly an error.
-/
import ZeroSdk.Lib.Bytes
import ZeroSdk.Lib.OrdMap
import ZeroSdk.Lib.Prog
import ZeroSdk.Lib.Postcard

namespace ZeroSdk

/-- A 16-byte sector identifier (UUIDv7). -/
structure SectorId where
  bytes : Arr 16
  deriving DecidableEq

/-- Sector ids compare as their bytes. -/
instance : LinearOrder SectorId := LinearOrder.lift' SectorId.bytes fun a b h => by cases a; cases b; simp_all

def SectorId.codec : Postcard.Codec SectorId :=
  Postcard.iso (Postcard.array 16) (·.bytes) (⟨·⟩) fun _ => rfl

/-- A failure inside RocksDB. -/
structure RocksError where
  text : String
  deriving DecidableEq

/-- The storage errors the modelled functions return. A missing column family
is not among them: `ZeroDb::open` creates all seven. -/
inductive StorageError
  | rocks (e : RocksError)
  | codec (e : Postcard.Error)
  | sectorNotFound (id : SectorId)
  | outboxFull
  deriving DecidableEq

/-- `ALL_CFS`. -/
inductive Cf
  | sectors
  | chains
  | inboxIndex
  | contacts
  | groups
  | outbox
  | metadata
  deriving DecidableEq

/-- A RocksDB item or pair list. -/
abbrev KvPairs := List (Bytes × Bytes)

inductive IteratorMode
  | start
  | forward (key : Bytes)
  | reverse (key : Bytes)

/-- What the code asks of RocksDB. -/
inductive StoreOp
  | get (cf : Cf) (key : Bytes)
  | put (cf : Cf) (key value : Bytes)
  | delete (cf : Cf) (key : Bytes)
  | iterator (cf : Cf) (mode : IteratorMode)

/-- What RocksDB answers. -/
abbrev StoreOp.Res : StoreOp → Type
  | .get _ _ => Except RocksError (Option Bytes)
  | .put _ _ _ => Except RocksError Unit
  | .delete _ _ => Except RocksError Unit
  | .iterator _ _ => List (Except RocksError (Bytes × Bytes))

abbrev rocks : Sig := ⟨StoreOp, StoreOp.Res⟩

/-- A program over the store. -/
abbrev DbProg (ε α : Type) := Prog rocks ε α

/-- The database: the content of each column family. -/
structure ZeroDb where
  cf : Cf → OrdMap Bytes Bytes

namespace ZeroDb

/-- A freshly opened database. -/
def empty : ZeroDb := ⟨fun _ => .empty⟩

def get (db : ZeroDb) (cf : Cf) (key : Bytes) : Option Bytes := (db.cf cf).get key

def put (db : ZeroDb) (cf : Cf) (key value : Bytes) : ZeroDb :=
  ⟨fun c => if c = cf then (db.cf c).put key value else db.cf c⟩

def delete (db : ZeroDb) (cf : Cf) (key : Bytes) : ZeroDb :=
  ⟨fun c => if c = cf then (db.cf c).delete key else db.cf c⟩

/-- The items of an iterator, in its order. -/
def items (db : ZeroDb) (cf : Cf) : IteratorMode → KvPairs
  | .start => (db.cf cf).entries
  | .forward k => (db.cf cf).forwardFrom k
  | .reverse k => (db.cf cf).reverseFrom k

/-- RocksDB that does not fail. -/
def handle : Handler rocks ZeroDb
  | .get cf key, db => (.ok (db.get cf key), db)
  | .put cf key value, db => (.ok (), db.put cf key value)
  | .delete cf key, db => (.ok (), db.delete cf key)
  | .iterator cf mode, db => ((db.items cf mode).map .ok, db)

/-- Runs a program on the database. -/
abbrev run {ε α : Type} (db : ZeroDb) (p : DbProg ε α) : Except ε α × ZeroDb := p.run handle db

theorem run_lift {ε α : Type} (db : ZeroDb) (r : Except ε α) : db.run (Prog.lift r) = (r, db) := rfl

theorem run_mapErr {ε ε' α : Type} (db : ZeroDb) (f : ε → ε') (p : DbProg ε α) :
    db.run (p.mapErr f) = ((db.run p).1.mapError f, (db.run p).2) := Prog.run_mapErr _ f p db

theorem run_attempt {ε ε' α : Type} (db : ZeroDb) (p : DbProg ε α) :
    db.run (p.attempt : DbProg ε' _) = (.ok (db.run p).1, (db.run p).2) := Prog.run_attempt _ p db

theorem run_bind_ok {ε α β : Type} {db db' : ZeroDb} {p : DbProg ε α} {f : α → DbProg ε β} {a : α}
    (h : db.run p = (.ok a, db')) : db.run (p >>= f) = db'.run (f a) := Prog.run_bind_ok _ h

/-- What holds of the database after a program, by its first part: the rest
runs from where that part ends, unless it failed. -/
theorem after_bind {ε α β : Type} {db : ZeroDb} {p : DbProg ε α} {f : α → DbProg ε β} (P : ZeroDb → Prop)
    (hok : ∀ a, (db.run p).1 = .ok a → P ((db.run p).2.run (f a)).2)
    (herr : ∀ e, (db.run p).1 = .error e → P (db.run p).2) : P (db.run (p >>= f)).2 := by
  unfold run at *
  rw [Prog.run_bind]
  rcases hr : Prog.run handle p db with ⟨_ | a, db'⟩
  · rw [hr] at herr
    exact herr _ rfl
  · rw [hr] at hok
    exact hok _ rfl

@[ext] theorem ext' {db db' : ZeroDb} (h : ∀ cf key, db.get cf key = db'.get cf key) : db = db' := by
  cases db with
  | mk f =>
  cases db' with
  | mk g =>
  congr 1
  funext cf
  exact OrdMap.ext (h cf)

theorem get_put (db : ZeroDb) (cf cf' : Cf) (k k' v : Bytes) :
    (db.put cf k v).get cf' k' = if cf' = cf ∧ k' = k then some v else db.get cf' k' := by
  by_cases hc : cf' = cf
  · subst hc; simp [put, get, OrdMap.get_put]
  · simp [put, get, hc]

@[simp] theorem get_put_self (db : ZeroDb) (cf : Cf) (k v : Bytes) : (db.put cf k v).get cf k = some v := by
  simp [get_put]

theorem get_put_of_ne (db : ZeroDb) (cf : Cf) {k k' : Bytes} (v : Bytes) (h : k' ≠ k) :
    (db.put cf k v).get cf k' = db.get cf k' := by
  simp [get_put, h]

theorem get_put_other (db : ZeroDb) {cf cf' : Cf} (k v k' : Bytes) (h : cf' ≠ cf) :
    (db.put cf k v).get cf' k' = db.get cf' k' := by
  simp [get_put, h]

theorem get_delete (db : ZeroDb) (cf cf' : Cf) (k k' : Bytes) :
    (db.delete cf k).get cf' k' = if cf' = cf ∧ k' = k then none else db.get cf' k' := by
  by_cases hc : cf' = cf
  · subst hc; simp [delete, get, OrdMap.get_delete]
  · simp [delete, get, hc]

theorem cf_put_self (db : ZeroDb) (cf : Cf) (k v : Bytes) : (db.put cf k v).cf cf = (db.cf cf).put k v := if_pos rfl

theorem cf_put_other (db : ZeroDb) {cf cf' : Cf} (k v : Bytes) (h : cf' ≠ cf) :
    (db.put cf k v).cf cf' = db.cf cf' := by
  simp [put, h]

theorem cf_delete_other (db : ZeroDb) {cf cf' : Cf} (k : Bytes) (h : cf' ≠ cf) :
    (db.delete cf k).cf cf' = db.cf cf' := by
  simp [delete, h]

end ZeroDb

/-! ## Raw access -/

/-- `put_raw`. -/
def putRaw (cf : Cf) (key value : Bytes) : DbProg StorageError Unit := do
  let r : Except RocksError Unit ← Prog.call (S := rocks) (.put cf key value)
  Prog.lift (r.mapError .rocks)

/-- `get_raw`. -/
def getRaw (cf : Cf) (key : Bytes) : DbProg StorageError (Option Bytes) := do
  let r : Except RocksError (Option Bytes) ← Prog.call (S := rocks) (.get cf key)
  Prog.lift (r.mapError .rocks)

/-- `delete_raw`. -/
def deleteRaw (cf : Cf) (key : Bytes) : DbProg StorageError Unit := do
  let r : Except RocksError Unit ← Prog.call (S := rocks) (.delete cf key)
  Prog.lift (r.mapError .rocks)

/-- `get_cf`: a point read, its error left to the caller. -/
def getCf {ε : Type} (cf : Cf) (key : Bytes) : DbProg ε (Except RocksError (Option Bytes)) :=
  Prog.call (S := rocks) (.get cf key)

/-- `iterator_cf`: the items of a snapshot. -/
def iteratorCf {ε : Type} (cf : Cf) (mode : IteratorMode) : DbProg ε (List (Except RocksError (Bytes × Bytes))) :=
  Prog.call (S := rocks) (.iterator cf mode)

/-- The loop of `prefix_scan_raw`: stops at the first key without the prefix. -/
def prefixScanLoop (pre : Bytes) : List (Except RocksError (Bytes × Bytes)) → Except StorageError KvPairs
  | [] => .ok []
  | .error e :: _ => .error (.rocks e)
  | .ok (k, v) :: l => if pre.isPrefixOf k then (prefixScanLoop pre l).map ((k, v) :: ·) else .ok []

/-- `prefix_scan_raw`: an iterator from the prefix on, cut at its end. -/
def prefixScanRaw (cf : Cf) (pre : Bytes) : DbProg StorageError KvPairs := do
  let items ← iteratorCf cf (.forward pre)
  Prog.lift (prefixScanLoop pre items)

section Run
variable (db : ZeroDb) (cf : Cf) (key value : Bytes)

@[simp] theorem run_putRaw : db.run (putRaw cf key value) = (.ok (), db.put cf key value) := rfl

@[simp] theorem run_getRaw : db.run (getRaw cf key) = (.ok (db.get cf key), db) := rfl

@[simp] theorem run_deleteRaw : db.run (deleteRaw cf key) = (.ok (), db.delete cf key) := rfl

@[simp] theorem run_getCf {ε : Type} :
    db.run (getCf cf key : DbProg ε _) = (.ok (.ok (db.get cf key)), db) := rfl

@[simp] theorem run_iteratorCf {ε : Type} (mode : IteratorMode) :
    db.run (iteratorCf cf mode : DbProg ε _) = (.ok ((db.items cf mode).map .ok), db) := rfl

end Run

theorem prefixScanLoop_ok (pre : Bytes) (l : KvPairs) :
    prefixScanLoop pre (l.map .ok) = .ok (l.takeWhile fun e => pre.isPrefixOf e.1) := by
  induction l with
  | nil => rfl
  | cons e l ih =>
    obtain ⟨k, v⟩ := e
    by_cases h : pre.isPrefixOf k = true <;> simp [prefixScanLoop, h, ih, Except.map]

/-- The keys with a prefix are the first ones from the prefix on. -/
theorem takeWhile_isPrefixOf (m : OrdMap Bytes Bytes) (pre : Bytes) :
    ((m.forwardFrom pre).takeWhile fun e => pre.isPrefixOf e.1) = m.select pre.isPrefixOf := by
  refine OrdMap.takeWhile_forwardFrom (p := pre.isPrefixOf) (fun k hk => ?_) (fun k k' hle hlt hk' => ?_)
  · exact Bytes.prefix_le (List.isPrefixOf_iff_prefix.mp hk)
  · rw [List.isPrefixOf_iff_prefix] at hk' ⊢
    by_contra hk
    exact absurd (lt_trans hlt (Bytes.lt_of_not_prefix hk' hle hk)) (lt_irrefl _)

@[simp] theorem run_prefixScanRaw (db : ZeroDb) (cf : Cf) (pre : Bytes) :
    db.run (prefixScanRaw cf pre) = (.ok ((db.cf cf).select pre.isPrefixOf), db) := by
  change (prefixScanLoop pre (((db.cf cf).forwardFrom pre).map .ok), db) = _
  rw [prefixScanLoop_ok, takeWhile_isPrefixOf]

end ZeroSdk
