/-
Calls on one shared `ZeroDb`, an operation of one call at a time. Behind an
`Arc<ZeroDb>` there is no lock, no transaction and no compare-and-swap: what
is atomic is a single RocksDB operation.

Many calls read one key, decide on what they read and write the key back
(`Rmw`). Any interleaving of such calls is a run of a cell with the same
reads and writes (`Rmw.run_cell`), so that the results of `Lib.Interleave`
apply to them.
-/
import ZeroSdk.Lib.Interleave
import ZeroSdk.Storage.Db

namespace ZeroSdk
open Interleave

def StoreOp.access : StoreOp → Access
  | .get _ _ | .iterator _ _ => .read
  | .put _ _ _ | .delete _ _ => .write

/-- Calls on a shared database. -/
abbrev Threads (ι ε : Type) := Pool rocks ι ε Unit ZeroDb

namespace Threads
variable {ι ε : Type} [DecidableEq ι]

/-- The calls and the database after the turns of a schedule. -/
def run (t : Threads ι ε) (sched : List ι) : Threads ι ε := Interleave.run (Pool.turn ZeroDb.handle) t sched

/-- The reads and writes made, in order, each with its call. -/
def accesses (t : Threads ι ε) (sched : List ι) : List (ι × Access) :=
  (Interleave.trace (Pool.turn ZeroDb.handle) t sched).map fun x => (x.1, StoreOp.access x.2)

/-- What call `i` returned, if it has. -/
def result (t : Threads ι ε) (i : ι) : Option (Except ε Unit) :=
  match t.threads i with
  | .ret r => some r
  | .op _ _ => none

/-- What call `i` does next, if it has not returned. -/
def next (t : Threads ι ε) (i : ι) : Option Access :=
  match t.threads i with
  | .ret _ => none
  | .op o _ => some (StoreOp.access o)

end Threads

/-- Where a call that has read the key goes on: to the write of a value, or
to its end. `Rep b v` says that the bytes `b` stand for `v`. -/
def Rmw.Rest {V ε : Type} (cf : Cf) (key : Bytes) (Rep : Bytes → V → Prop) : Phase V ε → DbProg ε Unit → Prop
  | .reading, _ => False
  | .writing new, p => ∃ b k, p = .op (.put cf key b) k ∧ Rep b new ∧ k (.ok ()) = .ret (.ok ())
  | .done r, p => p = .ret r

/-- `p` reads the key, and goes on as `decide` says of the value read. -/
def Rmw {V ε : Type} (cf : Cf) (key : Bytes) (Rep : Bytes → V → Prop) (decide : V → Except ε (Option V))
    (p : DbProg ε Unit) : Prop :=
  ∃ k, p = .op (.get cf key) k ∧
    ∀ b v, Rep b v → Rmw.Rest cf key Rep (.decided (decide v)) (k (.ok (some b)))

namespace Rmw
variable {ι V ε : Type} {cf : Cf} {key : Bytes} {Rep : Bytes → V → Prop} {decide : ι → V → Except ε (Option V)}

theorem drop {β : Type} {decide : V → Except ε (Option V)} {p : DbProg ε Unit} (h : Rmw cf key Rep decide p) (r : β) :
    Rmw cf key Rep decide ((p >>= fun _ => pure r) >>= fun _ => pure ()) := by
  obtain ⟨k, rfl, hrest⟩ := h
  refine ⟨fun b => ((k b).bind fun _ => pure r).bind fun _ => pure (), rfl, fun b v hb => ?_⟩
  have hk := hrest b v hb
  cases hp : Phase.decided (decide v) with
  | reading =>
    rw [hp] at hk
    exact hk.elim
  | writing new =>
    rw [hp] at hk
    obtain ⟨b', k', hput, hrep, hend⟩ := hk
    refine ⟨b', fun b => ((k' b).bind fun _ => pure r).bind fun _ => pure (), ?_, hrep, ?_⟩
    · simp only [hput, Prog.bind]
    · change ((k' _).bind _).bind _ = _
      rw [hend]
      rfl
  | done res =>
    rw [hp] at hk
    change ((k (.ok (some b))).bind _).bind _ = _
    rw [show k (.ok (some b)) = .ret res from hk]
    cases res <;> rfl

/-- A call in a phase of the cell. -/
def At (cf : Cf) (key : Bytes) (Rep : Bytes → V → Prop) (decide : V → Except ε (Option V)) :
    Phase V ε → DbProg ε Unit → Prop
  | .reading, p => Rmw cf key Rep decide p
  | phase, p => Rest cf key Rep phase p

theorem Rest.at {decide : V → Except ε (Option V)} {phase : Phase V ε} {p : DbProg ε Unit}
    (h : Rest cf key Rep phase p) : At cf key Rep decide phase p := by
  cases phase with
  | reading => exact h.elim
  | writing new => exact h
  | done r => exact h

/-- The threads and the cell agree: on the value of the key, and on where
each thread is. -/
structure Sim (cf : Cf) (key : Bytes) (Rep : Bytes → V → Prop) (decide : ι → V → Except ε (Option V))
    (t : Threads ι ε) (c : Cell ι V ε) : Prop where
  stored : ∃ b, t.state.get cf key = some b ∧ Rep b c.value
  threads : ∀ i, At cf key Rep (decide i) (c.phase i) (t.threads i)

theorem Sim.result_iff {t : Threads ι ε} {c : Cell ι V ε} (h : Sim cf key Rep decide t c) (i : ι) (r : Except ε Unit) :
    t.result i = some r ↔ c.phase i = .done r := by
  have hi := h.threads i
  unfold Threads.result
  cases hp : c.phase i with
  | reading =>
    rw [hp] at hi
    obtain ⟨k, hk, -⟩ := hi
    simp [hk]
  | writing new =>
    rw [hp] at hi
    obtain ⟨b', k, hk, -, -⟩ := hi
    simp [hk]
  | done r' =>
    rw [hp] at hi
    have hk : t.threads i = .ret r' := hi
    simp [hk]

/-- A call whose thread of the cell is about to write writes next. -/
theorem Sim.next_write {t : Threads ι ε} {c : Cell ι V ε} (h : Sim cf key Rep decide t c) {i : ι} {new : V}
    (hp : c.phase i = .writing new) : t.next i = some .write := by
  have hi := h.threads i
  rw [hp] at hi
  obtain ⟨b', k, hk, -, -⟩ := hi
  simp only [Threads.next, hk, StoreOp.access]

variable [DecidableEq ι]

theorem At.update {t : Threads ι ε} {c : Cell ι V ε} (h : ∀ i, At cf key Rep (decide i) (c.phase i) (t.threads i))
    {i : ι} {phase : Phase V ε} {p : DbProg ε Unit} (hi : At cf key Rep (decide i) phase p) (j : ι) :
    At cf key Rep (decide j) (Function.update c.phase i phase j) (Function.update t.threads i p j) := by
  by_cases hij : j = i
  · subst hij
    rw [Function.update_self, Function.update_self]
    exact hi
  · rw [Function.update_of_ne hij, Function.update_of_ne hij]
    exact h j

theorem Sim.turn {t : Threads ι ε} {c : Cell ι V ε} (h : Sim cf key Rep decide t c) (i : ι) :
    Match (Sim cf key Rep decide) StoreOp.access (Pool.turn ZeroDb.handle i t) (Cell.turn decide i c) := by
  obtain ⟨b, hb, hrep⟩ := h.stored
  have hi := h.threads i
  cases hp : c.phase i with
  | reading =>
    rw [hp] at hi
    obtain ⟨k, hk, hrest⟩ := hi
    have hr : (ZeroDb.handle (.get cf key) t.state).1 = .ok (some b) := congrArg Except.ok hb
    simp only [Pool.turn, Cell.turn, hk, hp, Match]
    refine ⟨rfl, ⟨b, hb, hrep⟩, At.update h.threads ?_⟩
    rw [hr]
    exact (hrest b c.value hrep).at
  | writing new =>
    rw [hp] at hi
    obtain ⟨b', k, hk, hrep', hend⟩ := hi
    simp only [Pool.turn, Cell.turn, hk, hp, Match]
    exact ⟨rfl, ⟨b', ZeroDb.get_put_self _ _ _ _, hrep'⟩, At.update h.threads hend⟩
  | done r =>
    rw [hp] at hi
    have hk : t.threads i = .ret r := hi
    simp only [Pool.turn, Cell.turn, hk, hp, Match]

/-- Read-modify-write calls on a shared database, under any schedule, are a
run of a cell, access by access. -/
theorem run_cell {t : Threads ι ε} {b : Bytes} {v : V} (ht : ∀ i, Rmw cf key Rep (decide i) (t.threads i))
    (hb : t.state.get cf key = some b) (hv : Rep b v) (sched : List ι) :
    Sim cf key Rep decide (t.run sched) (Interleave.run (Cell.turn decide) (Cell.init v) sched) ∧
      t.accesses sched = Interleave.trace (Cell.turn decide) (Cell.init v) sched := by
  have h : Sim cf key Rep decide t (Cell.init v) := ⟨⟨b, hb, hv⟩, ht⟩
  obtain ⟨hrun, htr⟩ := run_sim (fun i _ _ hs => hs.turn i) h sched
  exact ⟨hrun, htr.symm⟩

end Rmw

end ZeroSdk
