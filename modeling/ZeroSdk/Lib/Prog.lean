/-
Programs that call the operations of some service and may fail: what the
code does between two calls is a function of the answers so far, and a
program is the tree of its calls. One text serves every reading of the
code: run against a state (`run`), with the operations answering as they
like, or taken one operation at a time.

`run_bind` is the rule proofs use: a program runs its first part, and goes
on from the state that part leaves only when it did not fail. A failure
keeps the writes made before it.
-/
import Mathlib.Tactic.Common

/-- The operations of a service, each with the type of its answers. -/
structure Sig where
  Op : Type
  Res : Op → Type

/-- A program that returns an `α` or fails with an `ε`. -/
inductive Prog (S : Sig) (ε α : Type)
  | ret (r : Except ε α)
  | op (o : S.Op) (k : S.Res o → Prog S ε α)

/-- How a state answers each operation. -/
abbrev Handler (S : Sig) (σ : Type) := (o : S.Op) → σ → S.Res o × σ

namespace Prog
variable {S : Sig} {ε ε' α β σ : Type}

/-- `?` between two parts of a program. -/
protected def bind : Prog S ε α → (α → Prog S ε β) → Prog S ε β
  | .ret (.ok a), f => f a
  | .ret (.error e), _ => .ret (.error e)
  | .op o k, f => .op o fun r => (k r).bind f

instance : Monad (Prog S ε) where
  pure a := .ret (.ok a)
  bind := Prog.bind

/-- Returns or fails as `r` says. -/
def lift (r : Except ε α) : Prog S ε α := .ret r

/-- `return Err(e)`. -/
def fail (e : ε) : Prog S ε α := .ret (.error e)

/-- One operation. -/
def call (o : S.Op) : Prog S ε (S.Res o) := .op o fun r => .ret (.ok r)

/-- `ok_or(e)?`. -/
def okOr (o : Option α) (e : ε) : Prog S ε α :=
  match o with
  | some a => .ret (.ok a)
  | none => .ret (.error e)

/-- `map_err(f)`, also what `?` does through `From`. -/
def mapErr (f : ε → ε') : Prog S ε α → Prog S ε' α
  | .ret r => .ret (r.mapError f)
  | .op o k => .op o fun r => (k r).mapErr f

/-- The program's result, failed or not, as a value. -/
def attempt : Prog S ε α → Prog S ε' (Except ε α)
  | .ret r => .ret (.ok r)
  | .op o k => .op o fun r => (k r).attempt

/-- Runs the program from a state: its result and the state it leaves. -/
def run (h : Handler S σ) : Prog S ε α → σ → Except ε α × σ
  | .ret r, s => (r, s)
  | .op o k, s => (k (h o s).1).run h (h o s).2

variable (h : Handler S σ)

@[simp] theorem run_pure (a : α) (s : σ) : (pure a : Prog S ε α).run h s = (.ok a, s) := rfl

@[simp] theorem run_ret (r : Except ε α) (s : σ) : (ret r : Prog S ε α).run h s = (r, s) := rfl

@[simp] theorem run_lift (r : Except ε α) (s : σ) : (lift r : Prog S ε α).run h s = (r, s) := rfl

@[simp] theorem run_fail (e : ε) (s : σ) : (fail e : Prog S ε α).run h s = (.error e, s) := rfl

@[simp] theorem run_call (o : S.Op) (s : σ) :
    (call o : Prog S ε (S.Res o)).run h s = (.ok (h o s).1, (h o s).2) := rfl

theorem run_okOr (o : Option α) (e : ε) (s : σ) :
    (okOr o e : Prog S ε α).run h s = (match o with | some a => .ok a | none => .error e, s) := by
  cases o <;> rfl

@[simp] theorem run_okOr_some (a : α) (e : ε) (s : σ) :
    (okOr (some a) e : Prog S ε α).run h s = (.ok a, s) := rfl

@[simp] theorem run_okOr_none (e : ε) (s : σ) :
    (okOr none e : Prog S ε α).run h s = (.error e, s) := rfl

theorem run_bind (p : Prog S ε α) (f : α → Prog S ε β) (s : σ) :
    (p >>= f).run h s =
      match p.run h s with
      | (.ok a, s') => (f a).run h s'
      | (.error e, s') => (.error e, s') := by
  change (p.bind f).run h s = _
  induction p generalizing s with
  | ret r => cases r <;> rfl
  | op o k ih => exact ih _ _

theorem run_bind_ok {p : Prog S ε α} {f : α → Prog S ε β} {s s' : σ} {a : α} (hp : p.run h s = (.ok a, s')) :
    (p >>= f).run h s = (f a).run h s' := by rw [run_bind, hp]

theorem run_bind_eq_ok {p : Prog S ε α} {f : α → Prog S ε β} {s s'' : σ} {b : β} :
    (p >>= f).run h s = (.ok b, s'') ↔ ∃ a s', p.run h s = (.ok a, s') ∧ (f a).run h s' = (.ok b, s'') := by
  rw [run_bind]
  rcases p.run h s with ⟨e | a, s'⟩
  · refine ⟨fun heq => (by cases heq), fun ⟨a, s₁, heq, _⟩ => (by cases heq)⟩
  · refine ⟨fun heq => ⟨a, s', rfl, heq⟩, fun ⟨a', s₁, heq, hf⟩ => ?_⟩
    cases heq
    exact hf

@[simp] theorem run_mapErr (f : ε → ε') (p : Prog S ε α) (s : σ) :
    (p.mapErr f).run h s = ((p.run h s).1.mapError f, (p.run h s).2) := by
  induction p generalizing s with
  | ret r => rfl
  | op o k ih => exact ih _ _

@[simp] theorem run_attempt (p : Prog S ε α) (s : σ) :
    (p.attempt : Prog S ε' (Except ε α)).run h s = (.ok (p.run h s).1, (p.run h s).2) := by
  induction p generalizing s with
  | ret r => rfl
  | op o k ih => exact ih _ _

/-! ## What a program keeps -/

/-- The program keeps the property of the state, whether it fails or not. -/
def Keeps (P : σ → Prop) (p : Prog S ε α) : Prop := ∀ s, P s → P (p.run h s).2

variable {h} {P : σ → Prop}

theorem Keeps.ret (r : Except ε α) : Keeps h P (.ret r : Prog S ε α) := fun _ hs => hs

theorem Keeps.okOr (o : Option α) (e : ε) : Keeps h P (okOr o e : Prog S ε α) := by
  cases o with
  | none => exact .ret _
  | some a => exact .ret _

theorem Keeps.call {o : S.Op} (ho : ∀ s, P s → P (h o s).2) : Keeps h P (call o : Prog S ε (S.Res o)) := ho

theorem Keeps.bind {p : Prog S ε α} {f : α → Prog S ε β} (hp : Keeps h P p) (hf : ∀ a, Keeps h P (f a)) :
    Keeps h P (p >>= f) := by
  intro s hs
  have hs' := hp s hs
  rw [run_bind]
  rcases hr : p.run h s with ⟨e | a, s'⟩
  · rw [hr] at hs'
    exact hs'
  · rw [hr] at hs'
    exact hf a s' hs'

theorem Keeps.mapErr {p : Prog S ε α} (hp : Keeps h P p) (f : ε → ε') : Keeps h P (p.mapErr f) := by
  intro s hs
  rw [run_mapErr]
  exact hp s hs

theorem Keeps.attempt {p : Prog S ε α} (hp : Keeps h P p) : Keeps h P (p.attempt : Prog S ε' (Except ε α)) := by
  intro s hs
  rw [run_attempt]
  exact hp s hs

end Prog
