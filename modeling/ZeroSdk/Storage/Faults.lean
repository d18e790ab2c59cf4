/-
RocksDB that fails now and then. Which operations fail is a list given in
advance, so that a program can be run under every pattern of failures. An
operation that fails changes nothing; an iterator fails after some of its
items. With no failure to come this is the database of `ZeroDb.handle`
(`run_handleFaulty_nil`).

What a program has done when it returns `Ok` is read off backwards: each of
its writes succeeded.
-/
import ZeroSdk.Storage.Outbox

namespace ZeroSdk

/-- A failure: its error, and how many items an iterator yields before. -/
structure Fault where
  error : RocksError
  after : Nat
  deriving DecidableEq

/-- For each operation to come whether it fails; after the last one none does. -/
abbrev Faults := List (Option Fault)

/-- What RocksDB answers when it fails. -/
def StoreOp.failed (db : ZeroDb) (f : Fault) : (o : StoreOp) → o.Res
  | .get _ _ => .error f.error
  | .put _ _ _ => .error f.error
  | .delete _ _ => .error f.error
  | .iterator cf mode => ((db.items cf mode).map .ok).take f.after ++ [.error f.error]

/-- RocksDB with failures. -/
def ZeroDb.handleFaulty : Handler rocks (ZeroDb × Faults) := fun o s =>
  match s.2 with
  | some f :: faults => (o.failed s.1 f, (s.1, faults))
  | faults => ((handle o s.1).1, ((handle o s.1).2, faults.tail))

open ZeroDb (handleFaulty)

variable {ε α : Type} {s s' : ZeroDb × Faults} {cf : Cf} {key value : Bytes}

/-- Every operation fails and changes nothing, or is the database's own. -/
theorem handleFaulty_cases (o : StoreOp) (s : ZeroDb × Faults) :
    (∃ f, (handleFaulty o s).1 = o.failed s.1 f ∧ (handleFaulty o s).2.1 = s.1) ∨
    ((handleFaulty o s).1 = (ZeroDb.handle o s.1).1 ∧ (handleFaulty o s).2.1 = (ZeroDb.handle o s.1).2) := by
  obtain ⟨db, faults⟩ := s
  rcases faults with _ | ⟨_ | f, faults⟩
  · exact .inr ⟨rfl, rfl⟩
  · exact .inr ⟨rfl, rfl⟩
  · exact .inl ⟨f, rfl, rfl⟩

theorem run_handleFaulty_nil (db : ZeroDb) (p : DbProg ε α) :
    p.run handleFaulty (db, []) = ((db.run p).1, ((db.run p).2, [])) := by
  induction p generalizing db with
  | ret r => rfl
  | op o k ih => exact ih _ _

theorem run_of_handleFaulty_nil {db db' : ZeroDb} {faults : Faults} {p : DbProg ε α} {r : Except ε α}
    (h : p.run handleFaulty (db, []) = (r, (db', faults))) : db.run p = (r, db') := by
  rw [run_handleFaulty_nil] at h
  obtain ⟨hr, hs⟩ := Prod.mk.inj h
  exact Prod.ext hr (Prod.mk.inj hs).1

/-! ## Operation by operation -/

/-- How the operation `i` places ahead fails, if it does. -/
def Faults.nth (faults : Faults) (i : Nat) : Option Fault := faults[i]?.join

theorem Faults.nth_drop (faults : Faults) (n i : Nat) : nth (faults.drop n) i = faults.nth (n + i) := by
  rw [nth, List.getElem?_drop, nth]

theorem Faults.nth_drop_zero (faults : Faults) (n : Nat) : nth (faults.drop n) 0 = faults.nth n := nth_drop faults n 0

variable {db : ZeroDb} {faults : Faults}

theorem handleFaulty_some {f : Fault} (h : faults.nth 0 = some f) (o : StoreOp) :
    handleFaulty o (db, faults) = (o.failed db f, (db, faults.drop 1)) := by
  rcases faults with _ | ⟨_ | g, faults⟩
  · cases h
  · cases h
  · cases h
    rfl

theorem handleFaulty_none (h : faults.nth 0 = none) (o : StoreOp) :
    handleFaulty o (db, faults) = ((ZeroDb.handle o db).1, ((ZeroDb.handle o db).2, faults.drop 1)) := by
  rcases faults with _ | ⟨_ | g, faults⟩
  · rfl
  · rfl
  · cases h

theorem run_getRaw_some {f : Fault} (h : faults.nth 0 = some f) (cf : Cf) (key : Bytes) :
    (getRaw cf key).run handleFaulty (db, faults) = (.error (.rocks f.error), (db, faults.drop 1)) := by
  change ((handleFaulty (.get cf key) (db, faults)).1.mapError StorageError.rocks, _) = _
  rw [handleFaulty_some h]
  rfl

theorem run_getRaw_none (h : faults.nth 0 = none) (cf : Cf) (key : Bytes) :
    (getRaw cf key).run handleFaulty (db, faults) = (.ok (db.get cf key), (db, faults.drop 1)) := by
  change ((handleFaulty (.get cf key) (db, faults)).1.mapError StorageError.rocks, _) = _
  rw [handleFaulty_none h]
  rfl

theorem run_putRaw_some {f : Fault} (h : faults.nth 0 = some f) (cf : Cf) (key value : Bytes) :
    (putRaw cf key value).run handleFaulty (db, faults) = (.error (.rocks f.error), (db, faults.drop 1)) := by
  change ((handleFaulty (.put cf key value) (db, faults)).1.mapError StorageError.rocks, _) = _
  rw [handleFaulty_some h]
  rfl

theorem run_putRaw_none (h : faults.nth 0 = none) (cf : Cf) (key value : Bytes) :
    (putRaw cf key value).run handleFaulty (db, faults) = (.ok (), (db.put cf key value, faults.drop 1)) := by
  change ((handleFaulty (.put cf key value) (db, faults)).1.mapError StorageError.rocks, _) = _
  rw [handleFaulty_none h]
  rfl

theorem run_deleteRaw_some {f : Fault} (h : faults.nth 0 = some f) (cf : Cf) (key : Bytes) :
    (deleteRaw cf key).run handleFaulty (db, faults) = (.error (.rocks f.error), (db, faults.drop 1)) := by
  change ((handleFaulty (.delete cf key) (db, faults)).1.mapError StorageError.rocks, _) = _
  rw [handleFaulty_some h]
  rfl

theorem run_deleteRaw_none (h : faults.nth 0 = none) (cf : Cf) (key : Bytes) :
    (deleteRaw cf key).run handleFaulty (db, faults) = (.ok (), (db.delete cf key, faults.drop 1)) := by
  change ((handleFaulty (.delete cf key) (db, faults)).1.mapError StorageError.rocks, _) = _
  rw [handleFaulty_none h]
  rfl

/-- Behind a key without the prefix a scan reads nothing. -/
theorem prefixScanLoop_left {pre : Bytes} {l : KvPairs} (h : ∃ kv ∈ l, ¬ pre <+: kv.1)
    (rest rest' : List (Except RocksError (Bytes × Bytes))) :
    prefixScanLoop pre (l.map .ok ++ rest) = prefixScanLoop pre (l.map .ok ++ rest') := by
  induction l with
  | nil =>
    obtain ⟨kv, hkv, -⟩ := h
    cases hkv
  | cons kv l ih =>
    obtain ⟨k, v⟩ := kv
    simp only [List.map_cons, List.cons_append, prefixScanLoop]
    split
    · next hk =>
      rw [ih]
      obtain ⟨kv, hkv, hne⟩ := h
      rcases List.mem_cons.mp hkv with rfl | hmem
      · exact absurd (List.isPrefixOf_iff_prefix.mp hk) hne
      · exact ⟨kv, hmem, hne⟩
    · rfl

theorem prefixScanLoop_failed {pre : Bytes} {l : KvPairs} (h : ∀ kv ∈ l, pre <+: kv.1) (e : RocksError) :
    prefixScanLoop pre (l.map .ok ++ [.error e]) = .error (.rocks e) := by
  induction l with
  | nil => rfl
  | cons kv l ih =>
    obtain ⟨k, v⟩ := kv
    have hk : pre.isPrefixOf k = true := List.isPrefixOf_iff_prefix.mpr (h _ List.mem_cons_self)
    simp only [List.map_cons, List.cons_append, prefixScanLoop, hk, if_true]
    rw [ih fun kv hkv => h kv (List.mem_cons_of_mem _ hkv)]
    rfl

/-- The iterator of a prefix scan does not fail, or has left the prefix when it
does. -/
def ScansPast (db : ZeroDb) (faults : Faults) (cf : Cf) (pre : Bytes) : Prop :=
  ∀ f, faults.nth 0 = some f → ∃ kv ∈ (db.items cf (.forward pre)).take f.after, ¬ pre <+: kv.1

theorem run_prefixScanRaw_past {pre : Bytes} (h : ScansPast db faults cf pre) :
    (prefixScanRaw cf pre).run handleFaulty (db, faults) =
      (.ok ((db.cf cf).select pre.isPrefixOf), (db, faults.drop 1)) := by
  have hall : prefixScanLoop pre ((db.items cf (.forward pre)).map .ok) =
      .ok ((db.cf cf).select pre.isPrefixOf) := by
    rw [prefixScanLoop_ok]
    exact congrArg Except.ok (takeWhile_isPrefixOf _ pre)
  change (prefixScanLoop pre (handleFaulty (.iterator cf (.forward pre)) (db, faults)).1,
    (handleFaulty (.iterator cf (.forward pre)) (db, faults)).2) = _
  cases h₀ : faults.nth 0 with
  | none =>
    rw [handleFaulty_none h₀]
    exact Prod.ext hall rfl
  | some f =>
    rw [handleFaulty_some h₀]
    simp only [StoreOp.failed, ← List.map_take]
    -- the items up to the failure decide the scan
    rw [prefixScanLoop_left (h f h₀) _ (((db.items cf (.forward pre)).drop f.after).map .ok), ← List.map_append,
      List.take_append_drop, hall]

theorem run_prefixScanRaw_failed {pre : Bytes} (h : ¬ ScansPast db faults cf pre) :
    ∃ e, (prefixScanRaw cf pre).run handleFaulty (db, faults) = (.error (.rocks e), (db, faults.drop 1)) := by
  unfold ScansPast at h
  push Not at h
  obtain ⟨f, h₀, hin⟩ := h
  refine ⟨f.error, ?_⟩
  change (prefixScanLoop pre (handleFaulty (.iterator cf (.forward pre)) (db, faults)).1,
    (handleFaulty (.iterator cf (.forward pre)) (db, faults)).2) = _
  rw [handleFaulty_some h₀]
  simp only [StoreOp.failed, ← List.map_take]
  rw [prefixScanLoop_failed hin]

/-! ## What a program performs -/

/-- The operations a program performs, each with the failure it meets. -/
def performed : DbProg ε α → ZeroDb × Faults → List (StoreOp × Option Fault)
  | .ret _, _ => []
  | .op o k, s => (o, s.2.nth 0) :: performed (k (handleFaulty o s).1) (handleFaulty o s).2

theorem performed_bind {β : Type} (p : DbProg ε α) (f : α → DbProg ε β) (s : ZeroDb × Faults) :
    performed (p >>= f) s = performed p s ++
      match p.run handleFaulty s with
      | (.ok a, s') => performed (f a) s'
      | (.error _, _) => [] := by
  change performed (p.bind f) s = _
  induction p generalizing s with
  | ret r => cases r <;> rfl
  | op o k ih => exact congrArg _ (ih _ _)

theorem performed_mapErr {ε' : Type} (p : DbProg ε α) (f : ε → ε') (s : ZeroDb × Faults) :
    performed (p.mapErr f) s = performed p s := by
  induction p generalizing s with
  | ret r => rfl
  | op o k ih => exact congrArg _ (ih _ _)

theorem performed_attempt {ε' : Type} (p : DbProg ε α) (s : ZeroDb × Faults) :
    performed (p.attempt : DbProg ε' _) s = performed p s := by
  induction p generalizing s with
  | ret r => rfl
  | op o k ih => exact congrArg _ (ih _ _)

/-- Every operation performed is a `Q`. -/
def Performs (Q : StoreOp → Prop) (p : DbProg ε α) : Prop := ∀ s, ∀ o ∈ performed p s, Q o.1

theorem Performs.ret {Q : StoreOp → Prop} (r : Except ε α) : Performs Q (.ret r : DbProg ε α) := by
  intro s o ho
  cases ho

theorem Performs.call {Q : StoreOp → Prop} {o : StoreOp} (ho : Q o) :
    Performs Q (Prog.call (S := rocks) o : DbProg ε _) := by
  intro s o' ho'
  rw [List.mem_singleton.mp ho']
  exact ho

theorem Performs.bind {β : Type} {Q : StoreOp → Prop} {p : DbProg ε α} {f : α → DbProg ε β} (hp : Performs Q p)
    (hf : ∀ a, Performs Q (f a)) : Performs Q (p >>= f) := by
  intro s o ho
  rw [performed_bind] at ho
  rcases List.mem_append.mp ho with ho | ho
  · exact hp s o ho
  · split at ho
    · exact hf _ _ o ho
    · cases ho

theorem Performs.mapErr {ε' : Type} {Q : StoreOp → Prop} {p : DbProg ε α} (hp : Performs Q p) (f : ε → ε') :
    Performs Q (p.mapErr f) := by
  intro s o ho
  rw [performed_mapErr] at ho
  exact hp s o ho

theorem Performs.attempt {ε' : Type} {Q : StoreOp → Prop} {p : DbProg ε α} (hp : Performs Q p) :
    Performs Q (p.attempt : DbProg ε' (Except ε α)) := by
  intro s o ho
  rw [performed_attempt] at ho
  exact hp s o ho

/-- Some operation the program performs fails. -/
def Fails (p : DbProg ε α) (s : ZeroDb × Faults) : Prop := ∃ o f, (o, some f) ∈ performed p s

/-- The program fails if one of its operations does. -/
def Strict (p : DbProg ε α) : Prop := ∀ s, Fails p s → ∃ e, (p.run handleFaulty s).1 = .error e

theorem Strict.ret (r : Except ε α) : Strict (.ret r : DbProg ε α) := by
  rintro s ⟨o, f, h⟩
  cases h

theorem Strict.bind {β : Type} {p : DbProg ε α} {f : α → DbProg ε β} (hp : Strict p) (hf : ∀ a, Strict (f a)) :
    Strict (p >>= f) := by
  rintro s ⟨o, fault, ho⟩
  rw [performed_bind] at ho
  rw [Prog.run_bind]
  rcases hr : p.run handleFaulty s with ⟨e | a, s'⟩
  · exact ⟨e, rfl⟩
  · rw [hr] at ho
    rcases List.mem_append.mp ho with ho | ho
    · obtain ⟨e, he⟩ := hp s ⟨o, fault, ho⟩
      rw [hr] at he
      cases he
    · exact hf a s' ⟨o, fault, ho⟩

theorem Strict.mapErr {ε' : Type} {p : DbProg ε α} (hp : Strict p) (f : ε → ε') : Strict (p.mapErr f) := by
  rintro s ⟨o, fault, ho⟩
  rw [performed_mapErr] at ho
  obtain ⟨e, he⟩ := hp s ⟨o, fault, ho⟩
  rw [Prog.run_mapErr, he]
  exact ⟨f e, rfl⟩

/-- A program whose result is looked at. -/
theorem Strict.attempt_bind {ε' β : Type} {p : DbProg ε α} {f : Except ε α → DbProg ε' β} (hp : Strict p)
    (hf : ∀ r, Strict (f r)) (herr : ∀ e s, ∃ e', ((f (.error e)).run handleFaulty s).1 = .error e') :
    Strict (p.attempt >>= f) := by
  rintro s ⟨o, fault, ho⟩
  rw [performed_bind, performed_attempt, Prog.run_attempt] at ho
  rw [Prog.run_bind, Prog.run_attempt]
  rcases List.mem_append.mp ho with ho | ho
  · obtain ⟨e, he⟩ := hp s ⟨o, fault, ho⟩
    rw [he]
    exact herr e _
  · exact hf _ _ ⟨o, fault, ho⟩

/-- One operation whose failure is looked at. -/
theorem Strict.call {o : StoreOp} {g : o.Res → Except ε α} (hg : ∀ db f, ∃ e, g (o.failed db f) = .error e) :
    Strict (Prog.call (S := rocks) o >>= fun r => Prog.lift (g r) : DbProg ε α) := by
  rintro ⟨db, faults⟩ ⟨o', f, ho⟩
  have hf : faults.nth 0 = some f := by
    have ho : (o', some f) ∈ [(o, faults.nth 0)] := ho
    exact (Prod.mk.inj (List.mem_singleton.mp ho)).2.symm
  rw [Prog.run_bind, Prog.run_call, handleFaulty_some hf]
  exact hg db f

theorem strict_getRaw (cf : Cf) (key : Bytes) : Strict (getRaw cf key) :=
  Strict.call (o := .get cf key) fun _ f => ⟨.rocks f.error, rfl⟩

theorem strict_putRaw (cf : Cf) (key value : Bytes) : Strict (putRaw cf key value) :=
  Strict.call (o := .put cf key value) fun _ f => ⟨.rocks f.error, rfl⟩

/-! ## Operations that succeed -/

theorem getRaw_ok {v : Option Bytes} (h : (getRaw cf key).run handleFaulty s = (.ok v, s')) :
    v = s.1.get cf key ∧ s'.1 = s.1 := by
  have hrun : (getRaw cf key).run handleFaulty s =
      ((handleFaulty (.get cf key) s).1.mapError .rocks, (handleFaulty (.get cf key) s).2) := rfl
  rw [hrun] at h
  obtain ⟨hv, rfl⟩ := Prod.mk.inj h
  rcases handleFaulty_cases (.get cf key) s with ⟨f, hres, -⟩ | ⟨hres, hdb⟩
  · rw [hres] at hv
    cases hv
  · rw [hres] at hv
    exact ⟨(Except.ok.inj hv).symm, hdb⟩

theorem putRaw_ok {u : Unit} (h : (putRaw cf key value).run handleFaulty s = (.ok u, s')) :
    s'.1 = s.1.put cf key value := by
  have hrun : (putRaw cf key value).run handleFaulty s =
      ((handleFaulty (.put cf key value) s).1.mapError .rocks, (handleFaulty (.put cf key value) s).2) := rfl
  rw [hrun] at h
  obtain ⟨hv, rfl⟩ := Prod.mk.inj h
  rcases handleFaulty_cases (.put cf key value) s with ⟨f, hres, -⟩ | ⟨-, hdb⟩
  · rw [hres] at hv
    cases hv
  · exact hdb

theorem mapErr_ok {ε' : Type} {p : DbProg ε α} {f : ε → ε'} {a : α}
    (h : (p.mapErr f).run handleFaulty s = (.ok a, s')) : p.run handleFaulty s = (.ok a, s') := by
  rw [Prog.run_mapErr] at h
  rcases hr : p.run handleFaulty s with ⟨e | b, s₁⟩
  · rw [hr] at h
    cases h
  · rw [hr] at h
    cases h
    rfl

/-! ## What operations leave alone -/

/-- The database still satisfies `P`. -/
abbrev KeepsDb (P : ZeroDb → Prop) (p : DbProg ε α) : Prop := Prog.Keeps handleFaulty (fun s => P s.1) p

theorem keeps_op {P : ZeroDb → Prop} {o : StoreOp} (ho : ∀ db, P db → P (ZeroDb.handle o db).2) :
    KeepsDb P (Prog.call (S := rocks) o : DbProg ε _) := by
  refine Prog.Keeps.call fun s hs => ?_
  rcases handleFaulty_cases o s with ⟨f, -, hdb⟩ | ⟨-, hdb⟩
  · rw [hdb]
    exact hs
  · rw [hdb]
    exact ho _ hs

theorem keeps_getRaw (P : ZeroDb → Prop) (cf : Cf) (key : Bytes) : KeepsDb P (getRaw cf key) :=
  (keeps_op fun _ hdb => hdb).bind fun _ => .ret _

theorem keeps_putRaw {P : ZeroDb → Prop} (hput : ∀ db, P db → P (db.put cf key value)) :
    KeepsDb P (putRaw cf key value) := (keeps_op hput).bind fun _ => .ret _

namespace Outbox

theorem keeps_count (P : ZeroDb → Prop) : KeepsDb P count := (keeps_op fun _ hdb => hdb).bind fun _ => .ret _

theorem countLoop_error (n : Nat) (l : KvPairs) (e : RocksError) :
    countLoop n (l.map .ok ++ [.error e]) = .error (.rocks e) := by
  induction l generalizing n with
  | nil => rfl
  | cons kv l ih => exact ih (n + 1)

theorem run_count_some {f : Fault} (h : faults.nth 0 = some f) :
    count.run handleFaulty (db, faults) = (.error (.rocks f.error), (db, faults.drop 1)) := by
  change (countLoop 0 (handleFaulty (.iterator .outbox .start) (db, faults)).1, _) = _
  rw [handleFaulty_some h]
  simp only [StoreOp.failed, ← List.map_take, countLoop_error]

theorem run_count_none (h : faults.nth 0 = none) :
    count.run handleFaulty (db, faults) = (.ok (db.cf .outbox).entries.length, (db, faults.drop 1)) := by
  change (countLoop 0 (handleFaulty (.iterator .outbox .start) (db, faults)).1, _) = _
  rw [handleFaulty_none h]
  have hcount := countLoop_ok 0 (db.cf .outbox).entries
  rw [Nat.zero_add] at hcount
  exact Prod.ext hcount rfl

theorem strict_enqueue (outbox : Outbox) (entry : OutboxEntry) : Strict (outbox.enqueue entry) := by
  have hcount : Strict count := by
    refine Strict.call (o := .iterator .outbox .start) fun db f => ⟨.rocks f.error, ?_⟩
    simp only [StoreOp.failed, ← List.map_take, countLoop_error]
  unfold enqueue
  refine (strict_getRaw _ _).bind fun queued => ?_
  split
  · exact .ret _
  · refine hcount.bind fun n => ?_
    split
    · exact .ret _
    · exact strict_putRaw _ _ _

/-- The outbox has room, and none of the three operations of `enqueue` fails. -/
def Takes (outbox : Outbox) (db : ZeroDb) (faults : Faults) : Prop :=
  (db.cf .outbox).entries.length < outbox.capacity ∧
    faults.nth 0 = none ∧ faults.nth 1 = none ∧ faults.nth 2 = none

theorem takes_put {outbox : Outbox} {cf : Cf} (h : .outbox ≠ cf) {k v : Bytes} :
    outbox.Takes (db.put cf k v) faults ↔ outbox.Takes db faults := by
  rw [Takes, db.cf_put_other _ _ h, Takes]

theorem run_enqueue_takes {outbox : Outbox} (h : outbox.Takes db faults) {entry : OutboxEntry}
    (hnew : db.get .outbox entry.sectorId.bytes.val = none) :
    (outbox.enqueue entry).run handleFaulty (db, faults) =
      (.ok (), (db.put .outbox entry.sectorId.bytes.val (OutboxEntry.codec.enc entry), faults.drop 3)) := by
  obtain ⟨hroom, h₀, h₁, h₂⟩ := h
  have hfull : ¬ (db.cf .outbox).entries.length ≥ outbox.capacity := by omega
  rw [← Faults.nth_drop_zero] at h₁
  rw [← Faults.nth_drop_zero, ← List.drop_drop (i := 1) (j := 1)] at h₂
  unfold enqueue
  rw [Prog.run_bind_ok _ (run_getRaw_none h₀ _ _), hnew, if_neg (by simp)]
  rw [Prog.run_bind_ok _ (run_count_none h₁), if_neg hfull, run_putRaw_none h₂, List.drop_drop, List.drop_drop]

theorem run_enqueue_refuses {outbox : Outbox} (h : ¬ outbox.Takes db faults) {entry : OutboxEntry}
    (hnew : db.get .outbox entry.sectorId.bytes.val = none) :
    ∃ e faults', (outbox.enqueue entry).run handleFaulty (db, faults) = (.error e, (db, faults')) := by
  unfold enqueue
  rw [Prog.run_bind]
  cases h₀ : faults.nth 0 with
  | some f => exact ⟨_, _, by rw [run_getRaw_some h₀]⟩
  | none =>
    rw [run_getRaw_none h₀, hnew]
    simp only [Option.isSome_none, Bool.false_eq_true, if_false]
    rw [Prog.run_bind]
    cases h₁ : Faults.nth (faults.drop 1) 0 with
    | some f => exact ⟨_, _, by rw [run_count_some h₁]⟩
    | none =>
      rw [run_count_none h₁]
      simp only
      split
      · exact ⟨_, _, rfl⟩
      · next hroom =>
        cases h₂ : Faults.nth ((faults.drop 1).drop 1) 0 with
        | some f => exact ⟨_, _, by rw [run_putRaw_some h₂]⟩
        | none =>
          rw [Faults.nth_drop] at h₁ h₂
          rw [Faults.nth_drop] at h₂
          exact absurd ⟨by omega, h₀, h₁, h₂⟩ h

/-! What was written to another column family before is nothing to `enqueue`. -/

theorem run_enqueue_takes_put {outbox : Outbox} (h : outbox.Takes db faults) {entry : OutboxEntry}
    (hnew : db.get .outbox entry.sectorId.bytes.val = none) (cf : Cf) (hcf : .outbox ≠ cf) (k v : Bytes) :
    (outbox.enqueue entry).run handleFaulty (db.put cf k v, faults) =
      (.ok (), ((db.put cf k v).put .outbox entry.sectorId.bytes.val (OutboxEntry.codec.enc entry), faults.drop 3)) := by
  refine run_enqueue_takes ((takes_put hcf).mpr h) ?_
  rw [db.get_put_other _ _ _ hcf]
  exact hnew

theorem run_enqueue_refuses_put {outbox : Outbox} (h : ¬ outbox.Takes db faults) {entry : OutboxEntry}
    (hnew : db.get .outbox entry.sectorId.bytes.val = none) (cf : Cf) (hcf : .outbox ≠ cf) (k v : Bytes) :
    ∃ e faults', (outbox.enqueue entry).run handleFaulty (db.put cf k v, faults) =
      (.error e, (db.put cf k v, faults')) := by
  refine run_enqueue_refuses (mt (takes_put hcf).mp h) ?_
  rw [db.get_put_other _ _ _ hcf]
  exact hnew

theorem enqueue_ok {outbox : Outbox} {entry : OutboxEntry} {u : Unit}
    (h : (outbox.enqueue entry).run handleFaulty s = (.ok u, s')) :
    ((s.1.get .outbox entry.sectorId.bytes.val).isSome ∧ s'.1 = s.1) ∨
      s'.1 = s.1.put .outbox entry.sectorId.bytes.val (OutboxEntry.codec.enc entry) := by
  unfold enqueue at h
  obtain ⟨queued, s₁, hget, hrest⟩ := (Prog.run_bind_eq_ok _).mp h
  obtain ⟨rfl, hs₁⟩ := getRaw_ok hget
  split at hrest
  · next hq =>
    cases hrest
    exact .inl ⟨hq, hs₁⟩
  · obtain ⟨n, s₂, hcount, hrest⟩ := (Prog.run_bind_eq_ok _).mp hrest
    have hs₂ : s₂.1 = s.1 := by
      have hkeep := keeps_count (· = s.1) s₁ hs₁
      rw [hcount] at hkeep
      exact hkeep
    split at hrest
    · cases hrest
    · rw [← hs₂]
      exact .inr (putRaw_ok hrest)

end Outbox

end ZeroSdk
