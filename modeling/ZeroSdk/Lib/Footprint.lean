/-
Programs that keep to a part of the state, and why two groups of programs
with parts of their own do not notice each other.

A state has places, and each operation reads and writes at one of them
(`Placed`). A program is within a set of places when each operation it can
come to is at one of them, whatever the answers before it were (`Within`).
`Pool.agrees_run` is the result: what becomes of the threads within `A`, and
of the places in `A`, is decided by those threads, those places and their
own turns. The other threads, what they do and when, are no part of it.
-/
import Mathlib.Data.Set.Basic
import ZeroSdk.Lib.Interleave

namespace Prog
variable {S T : Sig} {φ ε ε' α β σ L V : Type}

/-- Every operation is at one place: its answer and what it leaves there
depend on that place only, and it leaves every other place as it was. The
handlers are the ways an operation can go. -/
structure Placed (h : φ → Handler S σ) (place : S.Op → L) (part : L → σ → V) : Prop where
  here : ∀ f o s s', part (place o) s = part (place o) s' →
    (h f o s).1 = (h f o s').1 ∧ part (place o) (h f o s).2 = part (place o) (h f o s').2
  elsewhere : ∀ f o s l, l ≠ place o → part l (h f o s).2 = part l s

/-- Every operation the program can come to is at a place in `A`. -/
def Within (place : S.Op → L) (A : Set L) : Prog S ε α → Prop
  | .ret _ => True
  | .op o k => place o ∈ A ∧ ∀ r, (k r).Within place A

variable {place : S.Op → L} {A B : Set L}

theorem Within.ret (r : Except ε α) : Within place A (.ret r : Prog S ε α) := trivial

theorem Within.lift (r : Except ε α) : Within place A (lift r : Prog S ε α) := trivial

theorem Within.pure (a : α) : Within place A (Pure.pure a : Prog S ε α) := trivial

theorem Within.fail (e : ε) : Within place A (fail e : Prog S ε α) := trivial

theorem Within.okOr (o : Option α) (e : ε) : Within place A (okOr o e : Prog S ε α) := by
  cases o with
  | none => exact .ret _
  | some a => exact .ret _

theorem Within.call {o : S.Op} (h : place o ∈ A) : Within place A (call o : Prog S ε (S.Res o)) :=
  ⟨h, fun _ => trivial⟩

theorem Within.bind {p : Prog S ε α} {f : α → Prog S ε β} (hp : p.Within place A) (hf : ∀ a, (f a).Within place A) :
    (p >>= f).Within place A := by
  change (p.bind f).Within place A
  induction p with
  | ret r =>
    cases r with
    | error e => exact .ret _
    | ok a => exact hf a
  | op o k ih => exact ⟨hp.1, fun r => ih r (hp.2 r)⟩

theorem Within.mapErr {p : Prog S ε α} (hp : p.Within place A) (f : ε → ε') : (p.mapErr f).Within place A := by
  induction p with
  | ret r => exact .ret _
  | op o k ih => exact ⟨hp.1, fun r => ih r (hp.2 r)⟩

theorem Within.attempt {p : Prog S ε α} (hp : p.Within place A) :
    (p.attempt : Prog S ε' (Except ε α)).Within place A := by
  induction p with
  | ret r => exact .ret _
  | op o k ih => exact ⟨hp.1, fun r => ih r (hp.2 r)⟩

theorem Within.mono {p : Prog S ε α} (hp : p.Within place A) (h : A ⊆ B) : p.Within place B := by
  induction p with
  | ret r => exact .ret _
  | op o k ih => exact ⟨h hp.1, fun r => ih r (hp.2 r)⟩

/-- A run leaves every place as it was that the program is not within. -/
theorem Within.part_run {h : φ → Handler S σ} {part : L → σ → V} (hh : Placed h place part) (f : φ)
    {p : Prog S ε α} (hp : p.Within place A) {l : L} (hl : l ∉ A) (s : σ) : part l (p.run (h f) s).2 = part l s := by
  induction p generalizing s with
  | ret r => rfl
  | op o k ih =>
    have hlo : l ≠ place o := fun heq => hl (heq ▸ hp.1)
    exact (ih _ (hp.2 _) _).trans (hh.elsewhere f o s l hlo)

/-! ## Programs over the calls of a service -/

/-- A program over the calls of a service, each call replaced by the program
that carries it out. -/
def expand (impl : (o : S.Op) → Prog T ε (S.Res o)) : Prog S ε α → Prog T ε α
  | .ret r => .ret r
  | .op o k => (impl o).bind fun r => (k r).expand impl

theorem Within.expand {place : T.Op → L} {impl : (o : S.Op) → Prog T ε (S.Res o)} {p : Prog S ε α}
    (hp : p.Within (fun o => o) {o | (impl o).Within place A}) : (p.expand impl).Within place A := by
  induction p with
  | ret r => exact .ret _
  | op o k ih => exact Within.bind hp.1 fun r => ih r (hp.2 r)

end Prog

namespace Interleave
variable {S : Sig} {ι φ ε α σ L V : Type}
open Prog

section Turns
variable [DecidableEq ι]

/-- A turn names a program and the way its next operation goes. -/
def Pool.turnWith (h : φ → Handler S σ) : Turn (ι × φ) (Pool S ι ε α σ) S.Op := fun x p => Pool.turn (h x.2) x.1 p

theorem Pool.step_turnWith (h : φ → Handler S σ) (p : Pool S ι ε α σ) (x : ι × φ) :
    ((∃ r, p.threads x.1 = .ret r) ∧ step (Pool.turnWith h) p x = p) ∨
      ∃ o k, p.threads x.1 = .op o k ∧
        (step (Pool.turnWith h) p x).threads = Function.update p.threads x.1 (k (h x.2 o p.state).1) ∧
        (step (Pool.turnWith h) p x).state = (h x.2 o p.state).2 := by
  cases hth : p.threads x.1 with
  | ret r => exact .inl ⟨⟨r, rfl⟩, by simp only [step, Pool.turnWith, Pool.turn, hth]⟩
  | op o k =>
    have ht : Pool.turnWith h x p =
        some (o, ⟨Function.update p.threads x.1 (k (h x.2 o p.state).1), (h x.2 o p.state).2⟩) := by
      simp only [Pool.turnWith, Pool.turn, hth]
    exact .inr ⟨o, k, rfl, by simp only [step, ht], by simp only [step, ht]⟩

end Turns

namespace Pool
variable {place : S.Op → L} {part : L → σ → V} {A : Set L} {G : Set ι} {h : φ → Handler S σ}
  {p q : Pool S ι ε α σ}

/-- The threads in `G` keep to `A`, the others to the rest. -/
structure Apart (place : S.Op → L) (A : Set L) (G : Set ι) (p : Pool S ι ε α σ) : Prop where
  inside : ∀ i ∈ G, (p.threads i).Within place A
  outside : ∀ i ∉ G, (p.threads i).Within place Aᶜ

/-- The same threads in `G`, and the same parts at the places in `A`. -/
structure Agrees (part : L → σ → V) (A : Set L) (G : Set ι) (p q : Pool S ι ε α σ) : Prop where
  threads : ∀ i ∈ G, p.threads i = q.threads i
  state : ∀ l ∈ A, part l p.state = part l q.state

theorem Agrees.rfl' : Agrees part A G p p := ⟨fun _ _ => rfl, fun _ _ => rfl⟩

theorem Agrees.symm (hpq : Agrees part A G p q) : Agrees part A G q p :=
  ⟨fun i hi => (hpq.threads i hi).symm, fun l hl => (hpq.state l hl).symm⟩

theorem Agrees.trans {r : Pool S ι ε α σ} (hpq : Agrees part A G p q) (hqr : Agrees part A G q r) :
    Agrees part A G p r :=
  ⟨fun i hi => (hpq.threads i hi).trans (hqr.threads i hi), fun l hl => (hpq.state l hl).trans (hqr.state l hl)⟩

variable [DecidableEq ι]

theorem Apart.step (hp : Apart place A G p) (x : ι × φ) : Apart place A G (step (turnWith h) p x) := by
  rcases step_turnWith h p x with ⟨-, hs⟩ | ⟨o, k, hth, hths, -⟩
  · rw [hs]
    exact hp
  · -- the thread goes on from one of the answers, and that is still within
    have hnext : ∀ B : Set L, (p.threads x.1).Within place B → (k (h x.2 o p.state).1).Within place B := by
      intro B hB
      rw [hth] at hB
      exact hB.2 _
    refine ⟨fun i hi => ?_, fun i hi => ?_⟩
    · rw [hths]
      by_cases hix : i = x.1
      · subst hix
        rw [Function.update_self]
        exact hnext A (hp.inside _ hi)
      · rw [Function.update_of_ne hix]
        exact hp.inside i hi
    · rw [hths]
      by_cases hix : i = x.1
      · subst hix
        rw [Function.update_self]
        exact hnext Aᶜ (hp.outside _ hi)
      · rw [Function.update_of_ne hix]
        exact hp.outside i hi

/-- A turn of another thread goes unnoticed. -/
theorem Agrees.step_outside (hh : Placed h place part) (hp : Apart place A G p) {x : ι × φ} (hx : x.1 ∉ G) :
    Agrees part A G (Interleave.step (turnWith h) p x) p := by
  rcases step_turnWith h p x with ⟨-, hs⟩ | ⟨o, k, hth, hths, hst⟩
  · rw [hs]
    exact .rfl'
  · have hout := hp.outside _ hx
    rw [hth] at hout
    refine ⟨fun i hi => ?_, fun l hl => ?_⟩
    · have hix : i ≠ x.1 := fun heq => hx (heq ▸ hi)
      rw [hths, Function.update_of_ne hix]
    · have hlo : l ≠ place o := fun heq => hout.1 (heq ▸ hl)
      rw [hst]
      exact hh.elsewhere x.2 o p.state l hlo

/-- A turn of a thread in `G` is the same turn in both. -/
theorem Agrees.step_inside (hh : Placed h place part) (hp : Apart place A G p) (hpq : Agrees part A G p q)
    {x : ι × φ} (hx : x.1 ∈ G) :
    Agrees part A G (Interleave.step (turnWith h) p x) (Interleave.step (turnWith h) q x) := by
  have hsame := hpq.threads _ hx
  rcases step_turnWith h p x with ⟨⟨r, hr⟩, hs⟩ | ⟨o, k, hth, hths, hst⟩
  · rcases step_turnWith h q x with ⟨-, hs'⟩ | ⟨o, k, hth, -, -⟩
    · rw [hs, hs']
      exact hpq
    · rw [hr, hth] at hsame
      cases hsame
  · rcases step_turnWith h q x with ⟨⟨r, hr⟩, -⟩ | ⟨o', k', hth', hths', hst'⟩
    · rw [hr, hth] at hsame
      cases hsame
    · rw [hth, hth'] at hsame
      cases hsame
      have hin := hp.inside _ hx
      rw [hth] at hin
      obtain ⟨hres, hpart⟩ := hh.here x.2 o p.state q.state (hpq.state _ hin.1)
      refine ⟨fun i hi => ?_, fun l hl => ?_⟩
      · rw [hths, hths', hres]
        by_cases hix : i = x.1
        · subst hix
          rw [Function.update_self, Function.update_self]
        · rw [Function.update_of_ne hix, Function.update_of_ne hix]
          exact hpq.threads i hi
      · rw [hst, hst']
        by_cases hlo : l = place o
        · subst hlo
          exact hpart
        · exact (hh.elsewhere _ _ _ l hlo).trans ((hpq.state l hl).trans (hh.elsewhere _ _ _ l hlo).symm)

/-- A run, and the run of the turns of `G` alone. -/
theorem Agrees.run_filter [DecidablePred (· ∈ G)] (hh : Placed h place part) (hp : Apart place A G p)
    (hpq : Agrees part A G p q) (sched : List (ι × φ)) :
    Agrees part A G (run (turnWith h) p sched) (run (turnWith h) q (sched.filter fun x => x.1 ∈ G)) := by
  induction sched generalizing p q with
  | nil => exact hpq
  | cons x sched ih =>
    by_cases hx : x.1 ∈ G
    · rw [List.filter_cons_of_pos (by simpa using hx)]
      exact ih (hp.step x) (hpq.step_inside hh hp hx)
    · rw [List.filter_cons_of_neg (by simpa using hx)]
      exact ih (hp.step x) ((step_outside hh hp hx).trans hpq)

/-- Two runs with the same threads in `G`, the same turns of them, and the
same parts in `A` to start with end with the same threads in `G` and the
same parts in `A`, whatever the other threads are and do. -/
theorem agrees_run [DecidablePred (· ∈ G)] (hh : Placed h place part) (hp : Apart place A G p)
    (hq : Apart place A G q) (hpq : Agrees part A G p q) {sched sched' : List (ι × φ)}
    (hsched : (sched.filter fun x => x.1 ∈ G) = sched'.filter fun x => x.1 ∈ G) :
    Agrees part A G (run (turnWith h) p sched) (run (turnWith h) q sched') := by
  have hleft := hpq.run_filter hh hp sched
  have hright := (Agrees.rfl' (p := q)).run_filter hh hq sched'
  rw [hsched] at hleft
  exact hleft.trans hright.symm

end Pool

end Interleave
