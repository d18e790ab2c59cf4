/-
Threads that take turns on a shared state, and what becomes of a cell they
read and later write.

A schedule names the thread of each turn; nothing restricts it, so a
statement about every schedule is one about every interleaving. Two systems
are instances: a pool of programs, each turn one operation of one program
(`Pool.turn`), and a cell whose threads decide on the value they read and
write what they decided at some later turn (`Cell.turn`). `run_sim` carries
a run of the first over to the second, which is where the results are.

A write takes effect as decided only if the value is still the one read:
`Cell.reflects` is about the runs where no write comes between a thread's
read and its write, `Cell.isGreatest_value` about those where no write
lowers the value.
-/
import Mathlib.Data.List.Induction
import Mathlib.Order.Bounds.Basic
import ZeroSdk.Lib.Prog

namespace Interleave
variable {ι σ τ Λ M : Type}

/-- What a thread's turn does: nothing once it has ended, or a step with a
label that says which. -/
abbrev Turn (ι σ Λ : Type) := ι → σ → Option (Λ × σ)

def step (t : Turn ι σ Λ) (s : σ) (i : ι) : σ :=
  match t i s with
  | none => s
  | some (_, s') => s'

/-- The state after the turns of a schedule. -/
def run (t : Turn ι σ Λ) (s : σ) (sched : List ι) : σ := sched.foldl (step t) s

def label (t : Turn ι σ Λ) (s : σ) (i : ι) : List (ι × Λ) :=
  match t i s with
  | none => []
  | some (l, _) => [(i, l)]

/-- The steps of a schedule, each with its thread. -/
def trace (t : Turn ι σ Λ) (s : σ) : List ι → List (ι × Λ)
  | [] => []
  | i :: sched => label t s i ++ trace t (step t s i) sched

theorem step_cases (t : Turn ι σ Λ) (s : σ) (i : ι) :
    (t i s = none ∧ step t s i = s ∧ label t s i = []) ∨
      ∃ l s', t i s = some (l, s') ∧ step t s i = s' ∧ label t s i = [(i, l)] := by
  unfold step label
  cases t i s with
  | none => exact .inl ⟨rfl, rfl, rfl⟩
  | some x => exact .inr ⟨x.1, x.2, rfl, rfl, rfl⟩

theorem run_cons_none {t : Turn ι σ Λ} {s : σ} {i : ι} (h : t i s = none) (sched : List ι) :
    run t s (i :: sched) = run t s sched ∧ trace t s (i :: sched) = trace t s sched := by
  simp [run, trace, step, label, h]

theorem run_cons_some {t : Turn ι σ Λ} {s s' : σ} {i : ι} {l : Λ} (h : t i s = some (l, s')) (sched : List ι) :
    run t s (i :: sched) = run t s' sched ∧ trace t s (i :: sched) = (i, l) :: trace t s' sched := by
  simp [run, trace, step, label, h]

theorem run_append (t : Turn ι σ Λ) (s : σ) (sched sched' : List ι) :
    run t s (sched ++ sched') = run t (run t s sched) sched' := List.foldl_append

theorem run_cons (t : Turn ι σ Λ) (s : σ) (i : ι) (sched : List ι) :
    run t s (i :: sched) = run t (step t s i) sched := rfl

theorem run_concat (t : Turn ι σ Λ) (s : σ) (sched : List ι) (i : ι) :
    run t s (sched ++ [i]) = step t (run t s sched) i := run_append t s sched [i]

theorem trace_append (t : Turn ι σ Λ) (s : σ) (sched sched' : List ι) :
    trace t s (sched ++ sched') = trace t s sched ++ trace t (run t s sched) sched' := by
  induction sched generalizing s with
  | nil => rfl
  | cons i sched ih =>
    rw [List.cons_append, trace, trace, ih, List.append_assoc]
    rfl

theorem trace_concat (t : Turn ι σ Λ) (s : σ) (sched : List ι) (i : ι) :
    trace t s (sched ++ [i]) = trace t s sched ++ label t (run t s sched) i := by
  rw [trace_append, trace, trace, List.append_nil]

theorem run_inv {t : Turn ι σ Λ} {I : σ → List (ι × Λ) → Prop} {s : σ} (hinit : I s [])
    (hturn : ∀ s tr i, I s tr → I (step t s i) (tr ++ label t s i)) (sched : List ι) :
    I (run t s sched) (trace t s sched) := by
  induction sched using List.reverseRecOn with
  | nil => exact hinit
  | append_singleton sched i ih =>
    rw [run_concat, trace_concat]
    exact hturn _ _ i ih

/-- Where an entry of `l ++ [y]` stands: at the end, or in `l`. -/
theorem concat_eq_split {α : Type} {l pre post : List α} {x y : α} (h : l ++ [y] = pre ++ x :: post) :
    (x = y ∧ post = []) ∨ ∃ post', post = post' ++ [y] ∧ l = pre ++ x :: post' := by
  rcases List.eq_nil_or_concat post with rfl | ⟨post', z, rfl⟩
  · obtain ⟨-, heq⟩ := List.append_inj' h rfl
    exact .inl ⟨(List.cons.inj heq).1.symm, rfl⟩
  · rw [List.concat_eq_append, ← List.cons_append, ← List.append_assoc] at h
    obtain ⟨hl, heq⟩ := List.append_inj' h rfl
    cases heq
    exact .inr ⟨post', List.concat_eq_append, hl⟩

/-- An entry that is not in the first part of a list is in the rest of it. -/
theorem append_eq_split {α : Type} {l rest pre post : List α} {x : α} (hx : x ∉ l) (h : l ++ rest = pre ++ x :: post) :
    ∃ pre', rest = pre' ++ x :: post := by
  rcases List.append_eq_append_iff.mp h with ⟨pre', -, hrest⟩ | ⟨l', rfl, hpost⟩
  · exact ⟨pre', hrest⟩
  · match l', hpost with
    | [], hpost => exact ⟨[], hpost.symm⟩
    | y :: l', hpost =>
      rw [(List.cons.inj hpost).1] at hx
      simp at hx

/-- Two turns that correspond: both do nothing, or both take a step, to
states that correspond again. -/
def Match (R : σ → τ → Prop) (f : Λ → M) : Option (Λ × σ) → Option (M × τ) → Prop
  | none, none => True
  | some (l, s), some (m, c) => m = f l ∧ R s c
  | _, _ => False

/-- A simulation step by step is one of whole runs, label by label. -/
theorem run_sim {t : Turn ι σ Λ} {u : Turn ι τ M} {R : σ → τ → Prop} {f : Λ → M}
    (hstep : ∀ i s c, R s c → Match R f (t i s) (u i c)) {s : σ} {c : τ} (h : R s c) (sched : List ι) :
    R (run t s sched) (run u c sched) ∧ trace u c sched = (trace t s sched).map fun x => (x.1, f x.2) := by
  induction sched generalizing s c with
  | nil => exact ⟨h, rfl⟩
  | cons i sched ih =>
    have hm := hstep i s c h
    simp only [run, List.foldl_cons, trace, List.map_append]
    cases ht : t i s with
    | none =>
      cases hu : u i c with
      | some x =>
        rw [ht, hu] at hm
        exact hm.elim
      | none =>
        simp only [step, label, ht, hu, List.map_nil, List.nil_append]
        exact ih h
    | some x =>
      cases hu : u i c with
      | none =>
        rw [ht, hu] at hm
        exact hm.elim
      | some y =>
        rw [ht, hu] at hm
        obtain ⟨hl, hr⟩ := hm
        simp only [step, label, ht, hu, List.map_cons, List.map_nil]
        obtain ⟨hrun, htr⟩ := ih hr
        exact ⟨hrun, by rw [htr, hl]⟩

/-! ## Programs -/

/-- Programs over one state. -/
structure Pool (S : Sig) (ι ε α σ : Type) where
  threads : ι → Prog S ε α
  state : σ

/-- A turn of a program: its next operation. -/
def Pool.turn {S : Sig} {ε α : Type} [DecidableEq ι] (h : Handler S σ) : Turn ι (Pool S ι ε α σ) S.Op
  | i, p =>
    match p.threads i with
    | .ret _ => none
    | .op o k => some (o, ⟨Function.update p.threads i (k (h o p.state).1), (h o p.state).2⟩)

/-! ## A cell that is read and later written -/

inductive Access
  | read
  | write
  deriving DecidableEq

/-- Where a thread is: before its read, between its read and its write, or
at its end. -/
inductive Phase (V ε : Type)
  | reading
  | writing (new : V)
  | done (r : Except ε Unit)

/-- After a decision: the write of a new value, or the end. -/
def Phase.decided {V ε : Type} : Except ε (Option V) → Phase V ε
  | .error e => .done (.error e)
  | .ok none => .done (.ok ())
  | .ok (some new) => .writing new

structure Cell (ι V ε : Type) where
  value : V
  phase : ι → Phase V ε

namespace Cell
variable {V ε : Type} [DecidableEq ι]

/-- Every thread is before its read. -/
def init (v : V) : Cell ι V ε := ⟨v, fun _ => .reading⟩

/-- `decide i v` is what thread `i` makes of the value `v`. -/
def turn (decide : ι → V → Except ε (Option V)) : Turn ι (Cell ι V ε) Access
  | i, c =>
    match c.phase i with
    | .reading => some (.read, { c with phase := Function.update c.phase i (.decided (decide i c.value)) })
    | .writing new => some (.write, ⟨new, Function.update c.phase i (.done (.ok ()))⟩)
    | .done _ => none

variable {decide : ι → V → Except ε (Option V)}

/-- What one turn does, with the label it leaves. -/
theorem turn_cases (decide : ι → V → Except ε (Option V)) (c : Cell ι V ε) (i : ι) :
    (∃ r, c.phase i = .done r ∧ step (turn decide) c i = c ∧ label (turn decide) c i = []) ∨
    (c.phase i = .reading ∧ (step (turn decide) c i).value = c.value ∧
      (step (turn decide) c i).phase = Function.update c.phase i (.decided (decide i c.value)) ∧
      label (turn decide) c i = [(i, .read)]) ∨
    (∃ new, c.phase i = .writing new ∧ (step (turn decide) c i).value = new ∧
      (step (turn decide) c i).phase = Function.update c.phase i (.done (.ok ())) ∧
      label (turn decide) c i = [(i, .write)]) := by
  cases hp : c.phase i with
  | reading =>
    have ht : turn decide i c = some (.read, ⟨c.value, Function.update c.phase i (.decided (decide i c.value))⟩) := by
      simp only [turn, hp]
    simp [step, label, ht]
  | writing new =>
    have ht : turn decide i c = some (.write, ⟨new, Function.update c.phase i (.done (.ok ()))⟩) := by
      simp only [turn, hp]
    simp [step, label, ht]
  | done r =>
    have ht : turn decide i c = none := by simp only [turn, hp]
    simp [step, label, ht]

theorem decided_writing {r : Except ε (Option V)} {new : V} (h : Phase.decided r = .writing new) : r = .ok (some new) := by
  match r, h with
  | .ok (some _), h =>
    cases h
    rfl

theorem decided_done_ok {r : Except ε (Option V)} (h : Phase.decided r = .done (.ok ())) : r = .ok none := by
  match r, h with
  | .ok none, _ => rfl

/-! ### Undisturbed runs -/

/-- No write comes between a thread's read and its write. -/
def Undisturbed (tr : List (ι × Access)) : Prop :=
  ∀ pre i mid post, tr = pre ++ (i, .read) :: mid ++ (i, .write) :: post → ∀ x ∈ mid, x.2 = .read

omit [DecidableEq ι] in
theorem Undisturbed.of_append {tr tr' : List (ι × Access)} (h : Undisturbed (tr ++ tr')) : Undisturbed tr := by
  intro pre i mid post heq
  exact h pre i mid (post ++ tr') (by rw [heq]; simp)

omit [DecidableEq ι] in
theorem Undisturbed.nil : Undisturbed ([] : List (ι × Access)) := by
  intro pre i mid post heq
  simp at heq

omit [DecidableEq ι] in
theorem Undisturbed.in_turn {tr : List (ι × Access)} (h : Undisturbed tr) {i : ι} (hi : ∀ x ∈ tr, x.1 ≠ i) :
    Undisturbed ((i, .read) :: (i, .write) :: tr) := by
  intro pre j mid post heq x hx
  match pre, mid, heq with
  | [], [], _ => cases hx
  | [], _ :: mid, heq =>
    -- the write would be a second one of the thread
    simp only [List.nil_append, List.cons_append, List.cons.injEq, Prod.mk.injEq] at heq
    obtain ⟨⟨rfl, -⟩, -, htr⟩ := heq
    exact absurd rfl (hi (i, .write) (htr ▸ List.mem_append_right _ List.mem_cons_self))
  | [_], mid, heq => simp at heq
  | _ :: _ :: pre, mid, heq =>
    simp only [List.cons_append, List.cons.injEq] at heq
    exact h pre j mid post heq.2.2 x hx

/-- A thread about to write has read a value and writes its decision on it;
the value is still that one unless there was a write since. -/
theorem writing_of_trace (v : V) (sched : List ι) {i : ι} {new : V}
    (h : (run (turn decide) (init v) sched).phase i = .writing new) :
    ∃ pre mid seen, trace (turn decide) (init v) sched = pre ++ (i, .read) :: mid ∧ decide i seen = .ok (some new) ∧
      ((∀ x ∈ mid, x.2 = .read) → seen = (run (turn decide) (init v) sched).value) := by
  induction sched using List.reverseRecOn generalizing i new with
  | nil => cases h
  | append_singleton sched j ih =>
    rw [run_concat] at h ⊢
    rw [trace_concat]
    rcases turn_cases decide (run (turn decide) (init v) sched) j with
      ⟨r, -, hs, hl⟩ | ⟨-, hv, hph, hl⟩ | ⟨w, -, hv, hph, hl⟩
    · rw [hs] at h ⊢
      rw [hl, List.append_nil]
      exact ih h
    · rw [hph] at h
      rw [hl, hv]
      by_cases hij : i = j
      · subst hij
        rw [Function.update_self] at h
        exact ⟨_, [], _, rfl, decided_writing h, fun _ => rfl⟩
      · rw [Function.update_of_ne hij] at h
        obtain ⟨pre, mid, seen, htr, hdec, hseen⟩ := ih h
        exact ⟨pre, mid ++ [(j, .read)], seen, by rw [htr]; simp, hdec, fun hm => hseen fun x hx => hm x (by simp [hx])⟩
    · rw [hph] at h
      rw [hl, hv]
      by_cases hij : i = j
      · subst hij
        rw [Function.update_self] at h
        cases h
      · rw [Function.update_of_ne hij] at h
        obtain ⟨pre, mid, seen, htr, hdec, -⟩ := ih h
        refine ⟨pre, mid ++ [(j, .write)], seen, by rw [htr]; simp, hdec, fun hm => ?_⟩
        -- the write of `j` is one since the read of `i`
        cases hm (j, .write) (by simp)

/-- In an undisturbed run a write is the decision on the value it replaces. -/
theorem write_current (v : V) {sched : List ι} {i : ι} {new : V}
    (hu : Undisturbed (trace (turn decide) (init v) (sched ++ [i])))
    (h : (run (turn decide) (init v) sched).phase i = .writing new)
    (hl : label (turn decide) (run (turn decide) (init v) sched) i = [(i, .write)]) :
    decide i (run (turn decide) (init v) sched).value = .ok (some new) := by
  obtain ⟨pre, mid, seen, htr, hdec, hseen⟩ := writing_of_trace v sched h
  rw [trace_concat, htr, hl] at hu
  rw [← hseen (hu pre i mid [] (by simp))]
  exact hdec

/-- What follows from the threads' writes one after the other: `I` is kept
by each decision made on the value it replaces. -/
theorem undisturbed_inv {I : List ι → V → Prop} {v : V} (hinit : I [] v)
    (hwrite : ∀ ws i v new, I ws v → decide i v = .ok (some new) → I (ws ++ [i]) new) {sched : List ι}
    (hu : Undisturbed (trace (turn decide) (init v) sched)) :
    I (((trace (turn decide) (init v) sched).filter (·.2 = .write)).map (·.1))
      (run (turn decide) (init v) sched).value := by
  induction sched using List.reverseRecOn with
  | nil => exact hinit
  | append_singleton sched i ih =>
    have hi := ih (by rw [trace_concat] at hu; exact hu.of_append)
    rw [run_concat, trace_concat]
    rcases turn_cases decide (run (turn decide) (init v) sched) i with
      ⟨r, -, hs, hl⟩ | ⟨-, hv, hph, hl⟩ | ⟨new, hp, hv, hph, hl⟩
    · rw [hs, hl, List.append_nil]
      exact hi
    · rw [hv, hl, List.filter_append]
      simpa using hi
    · have hdec := write_current v hu hp hl
      rw [hv, hl, List.filter_append, List.map_append]
      exact hwrite _ i _ _ hi hdec

/-- In an undisturbed run nothing that was done is lost: what a thread that
ended well established (by the value it wrote, or found) holds at the end,
unless a thread that undoes it has written since. -/
theorem reflects (Holds : ι → V → Prop) (Undoes : ι → ι → Prop)
    (hwrite : ∀ i v new, decide i v = .ok (some new) → Holds i new)
    (hnone : ∀ i v, decide i v = .ok none → Holds i v)
    (hkeep : ∀ i j v new, decide j v = .ok (some new) → Holds i v → ¬ Undoes j i → Holds i new) {v : V} {sched : List ι}
    (hu : Undisturbed (trace (turn decide) (init v) sched)) {pre post : List (ι × Access)} {i : ι} {a : Access}
    (htr : trace (turn decide) (init v) sched = pre ++ (i, a) :: post) (hlast : ∀ x ∈ post, x.1 ≠ i)
    (hdone : (run (turn decide) (init v) sched).phase i = .done (.ok ())) :
    Holds i (run (turn decide) (init v) sched).value ∨ ∃ x ∈ post, x.2 = .write ∧ Undoes x.1 i := by
  induction sched using List.reverseRecOn generalizing pre post i a with
  | nil => simp [trace] at htr
  | append_singleton sched j ih =>
    have ih' := @ih (by rw [trace_concat] at hu; exact hu.of_append)
    rw [run_concat] at hdone ⊢
    rcases turn_cases decide (run (turn decide) (init v) sched) j with
      ⟨r, -, hs, hl⟩ | ⟨-, hv, hph, hl⟩ | ⟨new, hp, hv, hph, hl⟩
    · rw [trace_concat, hl, List.append_nil] at htr
      rw [hs] at hdone ⊢
      exact ih' htr hlast hdone
    · rw [trace_concat, hl] at htr
      rw [hph] at hdone
      rw [hv]
      rcases concat_eq_split htr with ⟨heq, rfl⟩ | ⟨post, rfl, htr'⟩
      · cases heq
        rw [Function.update_self] at hdone
        exact .inl (hnone j _ (decided_done_ok hdone))
      · have hij : j ≠ i := hlast (j, .read) (by simp)
        rw [Function.update_of_ne hij.symm] at hdone
        rcases ih' htr' (fun x hx => hlast x (by simp [hx])) hdone with hh | ⟨x, hx, hun⟩
        · exact .inl hh
        · exact .inr ⟨x, by simp [hx], hun⟩
    · have hdec := write_current v hu hp hl
      rw [trace_concat, hl] at htr
      rw [hph] at hdone
      rw [hv]
      rcases concat_eq_split htr with ⟨heq, rfl⟩ | ⟨post, rfl, htr'⟩
      · cases heq
        exact .inl (hwrite j _ _ hdec)
      · have hij : j ≠ i := hlast (j, .write) (by simp)
        rw [Function.update_of_ne hij.symm] at hdone
        rcases ih' htr' (fun x hx => hlast x (by simp [hx])) hdone with hh | ⟨x, hx, hun⟩
        · by_cases hund : Undoes j i
          · exact .inr ⟨(j, .write), by simp, rfl, hund⟩
          · exact .inl (hkeep i j _ _ hdec hh hund)
        · exact .inr ⟨x, by simp [hx], hun⟩

/-! ### Writes that do not lower -/

section Rank
variable {L : Type}

/-- The initial rank and the ranks the ended threads asked for. -/
def asked (rank : V → L) (req : ι → L) (v : V) (c : Cell ι V ε) : Set L :=
  {l | l = rank v ∨ ∃ i r, c.phase i = .done r ∧ l = req i}

/-- A thread that ends adds what it asked for, and no other thread changes. -/
theorem asked_update (rank : V → L) (req : ι → L) (v : V) {c c' : Cell ι V ε} {i : ι} {p : Phase V ε}
    (hph : c'.phase = Function.update c.phase i p) (hi : ∀ r, c.phase i ≠ .done r) :
    (∀ r, p ≠ .done r) ∧ asked rank req v c' = asked rank req v c ∨
      (∃ r, p = .done r) ∧ asked rank req v c' = insert (req i) (asked rank req v c) := by
  have hother : ∀ j r, j ≠ i → (c'.phase j = .done r ↔ c.phase j = .done r) := by
    intro j r hj
    rw [hph, Function.update_of_ne hj]
  have hself : c'.phase i = p := by rw [hph, Function.update_self]
  by_cases hp : ∃ r, p = .done r
  · refine .inr ⟨hp, Set.ext fun l => ?_⟩
    obtain ⟨r, hr⟩ := hp
    constructor
    · intro h
      rcases h with h | ⟨j, r', hj, hl⟩
      · exact .inr (.inl h)
      · by_cases hij : j = i
        · subst hij
          exact .inl hl
        · exact .inr (.inr ⟨j, r', (hother j r' hij).mp hj, hl⟩)
    · intro h
      rcases h with h | h | ⟨j, r', hj, hl⟩
      · exact .inr ⟨i, r, hself.trans hr, h⟩
      · exact .inl h
      · have hij : j ≠ i := fun heq => hi r' (heq ▸ hj)
        exact .inr ⟨j, r', (hother j r' hij).mpr hj, hl⟩
  · have hp' : ∀ r, p ≠ .done r := fun r hr => hp ⟨r, hr⟩
    refine .inl ⟨hp', Set.ext fun l => ?_⟩
    have hne : ∀ j r, c'.phase j = .done r ↔ c.phase j = .done r := by
      intro j r
      by_cases hij : j = i
      · subst hij
        rw [hself]
        exact iff_of_false (hp' r) (hi r)
      · exact hother j r hij
    simp only [asked, hne]

/-- Where no write lowers the rank, the rank is the greatest of the initial
one and those the ended threads asked for. A thread that ends without a
write found at least what it asked for. -/
theorem isGreatest_value [LinearOrder L] (rank : V → L) (req : ι → L)
    (hset : ∀ i v new, decide i v = .ok (some new) → rank new = req i)
    (hskip : ∀ i v, (∀ new, decide i v ≠ .ok (some new)) → req i ≤ rank v) (v : V) (sched : List ι)
    (hraise : ∀ pre i post new, sched = pre ++ i :: post →
      (run (turn decide) (init v) pre).phase i = .writing new →
      rank (run (turn decide) (init v) pre).value ≤ req i) :
    IsGreatest (asked rank req v (run (turn decide) (init v) sched)) (rank (run (turn decide) (init v) sched).value) := by
  induction sched using List.reverseRecOn with
  | nil =>
    refine ⟨.inl rfl, fun l h => ?_⟩
    rcases h with rfl | ⟨_, _, h, -⟩
    · exact le_rfl
    · cases h
  | append_singleton sched i ih =>
    have hi := ih fun pre j post new heq => hraise pre j (post ++ [i]) new (by rw [heq]; simp)
    rw [run_concat]
    rcases turn_cases decide (run (turn decide) (init v) sched) i with
      ⟨r, -, hs, -⟩ | ⟨hp, hv, hph, -⟩ | ⟨new, hp, hv, hph, -⟩
    · rw [hs]
      exact hi
    · rw [hv]
      rcases asked_update rank req v hph (by rw [hp]; intro r h; cases h) with
        ⟨-, hset'⟩ | ⟨⟨r, hr⟩, hset'⟩
      · rw [hset']
        exact hi
      · rw [hset']
        have hle : req i ≤ rank (run (turn decide) (init v) sched).value := by
          refine hskip i _ fun new hnew => ?_
          rw [hnew] at hr
          cases hr
        exact ⟨.inr hi.1, fun l h => h.elim (fun h => h ▸ hle) (fun h => hi.2 h)⟩
    · obtain ⟨_, _, _, -, hdec, -⟩ := writing_of_trace v sched hp
      rw [hv, hset i _ _ hdec]
      rcases asked_update rank req v hph (by rw [hp]; intro r h; cases h) with
        ⟨hnot, -⟩ | ⟨-, hset'⟩
      · exact absurd rfl (hnot _)
      · rw [hset']
        have hle := hraise sched i [] new rfl hp
        exact ⟨.inl rfl, fun l h => h.elim (fun h => h.le) (fun h => (hi.2 h).trans hle)⟩

end Rank

end Cell

end Interleave
