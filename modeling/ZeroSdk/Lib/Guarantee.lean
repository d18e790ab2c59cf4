/-
What a program guarantees when others run between its operations, and any of
its operations may go wrong. `I` is an invariant all programs on a state
keep. Between two operations of a program the state may become any other one
that satisfies `I`, so a program is `Safe` when each operation, from every
such state and whichever way it goes, leaves one again, and what the program
returns satisfies `Q`.

Programs that are `Safe` one by one are so together, in every schedule
(`Pool.safe_run`), and a client of a service is as good as the promises of
the calls it makes.

What a program returns may depend on more than an invariant: on the states
that the run really went through. A program `Hears` the states its operations
are answered by, whatever it leaves itself, and in a run these are states of
the run (`Pool.hears_run`).
-/
import ZeroSdk.Lib.Footprint

namespace Prog
variable {S T : Sig} {φ ε ε' α β σ : Type}

/-- Every operation keeps `I` from every state of `I`, and the result is a `Q`. -/
def Safe (h : φ → Handler S σ) (I : σ → Prop) (Q : Except ε α → Prop) : Prog S ε α → Prop
  | .ret r => Q r
  | .op o k => ∀ f s, I s → I (h f o s).2 ∧ (k (h f o s).1).Safe h I Q

variable {h : φ → Handler S σ} {I : σ → Prop} {Q R : Except ε α → Prop}

theorem Safe.ret {r : Except ε α} (hr : Q r) : (Prog.ret r).Safe h I Q := hr

theorem Safe.call {o : S.Op} {Q : Except ε (S.Res o) → Prop}
    (ho : ∀ f s, I s → I (h f o s).2 ∧ Q (.ok (h f o s).1)) : (Prog.call o).Safe h I Q := ho

theorem Safe.mono {p : Prog S ε α} (hp : p.Safe h I Q) (hQ : ∀ r, Q r → R r) : p.Safe h I R := by
  induction p with
  | ret r => exact hQ r hp
  | op o k ih => exact fun f s hs => ⟨(hp f s hs).1, ih _ (hp f s hs).2⟩

theorem Safe.bind {p : Prog S ε α} {f : α → Prog S ε β} {R : Except ε β → Prop} (hp : p.Safe h I Q)
    (hok : ∀ a, Q (.ok a) → (f a).Safe h I R) (herr : ∀ e, Q (.error e) → R (.error e)) :
    (p >>= f).Safe h I R := by
  change (p.bind f).Safe h I R
  induction p with
  | ret r =>
    cases r with
    | error e => exact herr e hp
    | ok a => exact hok a hp
  | op o k ih => exact fun g s hs => ⟨(hp g s hs).1, ih _ (hp g s hs).2⟩

theorem Safe.mapErr {p : Prog S ε α} {g : ε → ε'} {R : Except ε' α → Prop} (hp : p.Safe h I Q)
    (hR : ∀ r, Q r → R (r.mapError g)) : (p.mapErr g).Safe h I R := by
  induction p with
  | ret r => exact hR r hp
  | op o k ih => exact fun f s hs => ⟨(hp f s hs).1, ih _ (hp f s hs).2⟩

theorem Safe.attempt {p : Prog S ε α} {R : Except ε' (Except ε α) → Prop} (hp : p.Safe h I Q)
    (hR : ∀ r, Q r → R (.ok r)) : (p.attempt : Prog S ε' (Except ε α)).Safe h I R := by
  induction p with
  | ret r => exact hR r hp
  | op o k ih => exact fun f s hs => ⟨(hp f s hs).1, ih _ (hp f s hs).2⟩

/-- `ok_or(e)?` on a value that is known to be something good, or missing. -/
theorem Safe.okOr {o : Option α} {e : ε} (hsome : ∀ a, o = some a → Q (.ok a)) (hnone : o = none → Q (.error e)) :
    (okOr o e).Safe h I Q := by
  cases o with
  | none => exact hnone rfl
  | some a => exact hsome a rfl

theorem Safe.run {p : Prog S ε α} (hp : p.Safe h I Q) (f : φ) {s : σ} (hs : I s) :
    I (p.run (h f) s).2 ∧ Q (p.run (h f) s).1 := by
  induction p generalizing s with
  | ret r => exact ⟨hs, hp⟩
  | op o k ih => exact ih _ (hp f s hs).2 (hp f s hs).1

/-- A part that uses what the part before it returned, where only the
invariant matters in the end. -/
theorem Safe.seq {p : Prog S ε α} {f : α → Prog S ε β} (hp : p.Safe h I Q)
    (hf : ∀ a, Q (.ok a) → (f a).Safe h I fun _ => True) : (p >>= f).Safe h I fun _ => True :=
  hp.bind hf fun _ _ => trivial

theorem Safe.anyErr {p : Prog S ε α} (hp : p.Safe h I Q) (g : ε → ε') : (p.mapErr g).Safe h I fun _ => True :=
  hp.mapErr fun _ _ => trivial

/-- A program within places whose operations keep `I`, whatever they answer. -/
theorem Within.safe {L : Type} {place : S.Op → L} {A : Set L} {p : Prog S ε α} (hp : p.Within place A)
    (hA : ∀ f o s, place o ∈ A → I s → I (h f o s).2) : p.Safe h I fun _ => True := by
  induction p with
  | ret r => exact trivial
  | op o k ih => exact fun f s hs => ⟨hA f o s hp.1 hs, ih _ (hp.2 _)⟩

theorem Safe.and {J : σ → Prop} {p : Prog S ε α} (hp : p.Safe h I Q) (hp' : p.Safe h J R) :
    p.Safe h (fun s => I s ∧ J s) fun r => Q r ∧ R r := by
  induction p with
  | ret r => exact ⟨hp, hp'⟩
  | op o k ih =>
    intro f s hs
    obtain ⟨hI, hk⟩ := hp f s hs.1
    obtain ⟨hJ, hk'⟩ := hp' f s hs.2
    exact ⟨⟨hI, hJ⟩, ih _ hk hk'⟩

theorem Safe.congr {J : σ → Prop} {p : Prog S ε α} (hp : p.Safe h I Q) (hIJ : ∀ s, I s ↔ J s) : p.Safe h J Q := by
  have heq : I = J := funext fun s => propext (hIJ s)
  exact heq ▸ hp

/-! ## Results by their two cases -/

/-- An error of `E`, or a value of `Q`. -/
def Returns (E : ε → Prop) (Q : α → Prop) : Except ε α → Prop
  | .error e => E e
  | .ok a => Q a

section Returns
variable {E : ε → Prop} {E' : ε' → Prop} {P : α → Prop} {O : β → Prop}

/-- `?` between two parts that fail in the same ways. -/
theorem Safe.andThen {p : Prog S ε α} {f : α → Prog S ε β} (hp : p.Safe h I (Returns E P))
    (hf : ∀ a, P a → (f a).Safe h I (Returns E O)) : (p >>= f).Safe h I (Returns E O) :=
  hp.bind hf fun _ he => he

theorem Safe.mapError {p : Prog S ε α} (hp : p.Safe h I (Returns E P)) {g : ε → ε'} (hg : ∀ e, E e → E' (g e)) :
    (p.mapErr g).Safe h I (Returns E' P) := by
  refine hp.mapErr fun r hr => ?_
  cases r with
  | error e => exact hg e hr
  | ok a => exact hr

/-- A part whose failure is a value to what follows. -/
theorem Safe.attempted {p : Prog S ε α} (hp : p.Safe h I (Returns E P)) :
    (p.attempt : Prog S ε' (Except ε α)).Safe h I (Returns E' (Returns E P)) := hp.attempt fun _ hr => hr

theorem Returns.mono {r : Except ε α} {E' : ε → Prop} {P' : α → Prop} (hr : Returns E P r) (hE : ∀ e, E e → E' e)
    (hP : ∀ a, P a → P' a) : Returns E' P' r := by
  cases r with
  | error e => exact hE e hr
  | ok a => exact hP a hr

end Returns

/-! ## What a program hears -/

/-- The result is a `Q` when every operation is answered by a state of `V`. -/
def Hears (h : φ → Handler S σ) (V : σ → Prop) (Q : Except ε α → Prop) : Prog S ε α → Prop
  | .ret r => Q r
  | .op o k => ∀ f s, V s → (k (h f o s).1).Hears h V Q

section Hears
variable {V : σ → Prop}

theorem Safe.hears {p : Prog S ε α} (hp : p.Safe h I Q) (hV : ∀ s, V s → I s) : p.Hears h V Q := by
  induction p with
  | ret r => exact hp
  | op o k ih => exact fun f s hs => ih _ (hp f s (hV s hs)).2

theorem Hears.always {p : Prog S ε α} : p.Hears h V fun _ => True := by
  induction p with
  | ret r => trivial
  | op o k ih => exact fun f s _ => ih _

theorem Hears.mono {p : Prog S ε α} (hp : p.Hears h V Q) (hQ : ∀ r, Q r → R r) : p.Hears h V R := by
  induction p with
  | ret r => exact hQ r hp
  | op o k ih => exact fun f s hs => ih _ (hp f s hs)

theorem Hears.bind {p : Prog S ε α} {f : α → Prog S ε β} {R : Except ε β → Prop} (hp : p.Hears h V Q)
    (hok : ∀ a, Q (.ok a) → (f a).Hears h V R) (herr : ∀ e, Q (.error e) → R (.error e)) :
    (p >>= f).Hears h V R := by
  change (p.bind f).Hears h V R
  induction p with
  | ret r =>
    cases r with
    | error e => exact herr e hp
    | ok a => exact hok a hp
  | op o k ih => exact fun g s hs => ih _ (hp g s hs)

theorem Hears.mapErr {p : Prog S ε α} {g : ε → ε'} {R : Except ε' α → Prop} (hp : p.Hears h V Q)
    (hR : ∀ r, Q r → R (r.mapError g)) : (p.mapErr g).Hears h V R := by
  induction p with
  | ret r => exact hR r hp
  | op o k ih => exact fun f s hs => ih _ (hp f s hs)

theorem Hears.attempt {p : Prog S ε α} {R : Except ε' (Except ε α) → Prop} (hp : p.Hears h V Q)
    (hR : ∀ r, Q r → R (.ok r)) : (p.attempt : Prog S ε' (Except ε α)).Hears h V R := by
  induction p with
  | ret r => exact hR r hp
  | op o k ih => exact fun f s hs => ih _ (hp f s hs)

theorem Hears.and {p : Prog S ε α} (hp : p.Hears h V Q) (hp' : p.Hears h V R) : p.Hears h V fun r => Q r ∧ R r := by
  induction p with
  | ret r => exact ⟨hp, hp'⟩
  | op o k ih => exact fun f s hs => ih _ (hp f s hs) (hp' f s hs)

end Hears

/-! ## Clients -/

/-- The client returns a `Q` as long as each call it makes answers with what
was promised of it. -/
def Relies (P : (o : S.Op) → S.Res o → Prop) (Q : Except ε α → Prop) : Prog S ε α → Prop
  | .ret r => Q r
  | .op o k => ∀ a, P o a → (k a).Relies P Q

/-- A client of calls that keep their promises. -/
theorem Hears.expand {h : φ → Handler T σ} {V : σ → Prop} {impl : (o : S.Op) → Prog T ε (S.Res o)}
    {P : (o : S.Op) → S.Res o → Prop} (himpl : ∀ o, (impl o).Hears h V fun r => ∃ a, r = .ok a ∧ P o a)
    {p : Prog S ε α} (hp : p.Relies P Q) : (p.expand impl).Hears h V Q := by
  induction p with
  | ret r => exact hp
  | op o k ih =>
    refine (himpl o).bind (fun a ha => ?_) fun e he => ?_
    · obtain ⟨b, hb, hP⟩ := ha
      cases hb
      exact ih a (hp a hP)
    · obtain ⟨b, hb, -⟩ := he
      cases hb

theorem Within.expand_safe {h : φ → Handler T σ} {impl : (o : S.Op) → Prog T ε (S.Res o)} {p : Prog S ε α}
    (hp : p.Within (fun o => o) {o | (impl o).Safe h I fun _ => True}) : (p.expand impl).Safe h I fun _ => True := by
  induction p with
  | ret r => exact trivial
  | op o k ih => exact Safe.bind hp.1 (fun a _ => ih a (hp.2 a)) fun _ _ => trivial

end Prog

namespace Interleave.Pool
variable {S : Sig} {ι φ ε α σ : Type} [DecidableEq ι] {h : φ → Handler S σ} {I : σ → Prop}
  {Q : ι → Except ε α → Prop}

/-- Programs that are safe one by one are safe in every schedule: the state
satisfies `I` at every point of it, and whatever has returned returned a `Q`. -/
theorem safe_run {p : Pool S ι ε α σ} (hstate : I p.state) (hthreads : ∀ i, (p.threads i).Safe h I (Q i))
    (sched : List (ι × φ)) :
    I (run (turnWith h) p sched).state ∧ ∀ i, ((run (turnWith h) p sched).threads i).Safe h I (Q i) := by
  induction sched generalizing p with
  | nil => exact ⟨hstate, hthreads⟩
  | cons x sched ih =>
    have hstep : I (step (turnWith h) p x).state ∧ ∀ i, ((step (turnWith h) p x).threads i).Safe h I (Q i) := by
      rcases step_turnWith h p x with ⟨-, hs⟩ | ⟨o, k, hth, hths, hst⟩
      · rw [hs]
        exact ⟨hstate, hthreads⟩
      · have hsafe := hthreads x.1
        rw [hth] at hsafe
        obtain ⟨hI, hk⟩ := hsafe x.2 p.state hstate
        rw [hst, hths]
        refine ⟨hI, fun i => ?_⟩
        by_cases hix : i = x.1
        · subst hix
          rw [Function.update_self]
          exact hk
        · rw [Function.update_of_ne hix]
          exact hthreads i
    exact ih hstep.1 hstep.2

/-- In a run a program hears states of the run, and returns accordingly. -/
theorem hears_run {V : σ → Prop} {p : Pool S ι ε α σ} {sched : List (ι × φ)}
    (hV : ∀ pre, pre <+: sched → V (run (turnWith h) p pre).state) (hthreads : ∀ i, (p.threads i).Hears h V (Q i)) :
    ∀ i, ((run (turnWith h) p sched).threads i).Hears h V (Q i) := by
  induction sched generalizing p with
  | nil => exact hthreads
  | cons x sched ih =>
    refine ih (fun pre hpre => hV (x :: pre) (List.cons_prefix_cons.mpr ⟨rfl, hpre⟩)) fun i => ?_
    rcases step_turnWith h p x with ⟨-, hs⟩ | ⟨o, k, hth, hths, -⟩
    · rw [hs]
      exact hthreads i
    · rw [hths]
      by_cases hix : i = x.1
      · subst hix
        have hhears := hthreads x.1
        rw [hth] at hhears
        rw [Function.update_self]
        exact hhears x.2 p.state (hV [] List.nil_prefix)
      · rw [Function.update_of_ne hix]
        exact hthreads i

end Interleave.Pool
