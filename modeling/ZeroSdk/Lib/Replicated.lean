/-
Items that are made at one replica and copied to the others, each with a
status that marks raise. A replica keeps the first copy of an item it takes,
and a mark raises the copy of whoever handles it, if there is one by then.
Copies and marks that were sent stay in flight for good, so a step may use
one again, late or never.

Every copy is its item as it was made, raised by some of the marks sent for
it (`Inv`, kept by every step). So two replicas hold the same copy of an item
as soon as no mark in flight raises either of them any more (`Inv.agree`),
whatever came to them in which order.
-/
import Mathlib.Order.BoundedOrder.Lattice
import Mathlib.Data.List.Induction
import Mathlib.Logic.Function.Basic
import Mathlib.Tactic.Common

namespace Replicated
variable {ι κ α σ : Type}

/-! ## Statuses -/

/-- The join of a list of statuses. -/
def join [SemilatticeSup σ] [OrderBot σ] (l : List σ) : σ := l.foldr (· ⊔ ·) ⊥

section Join
variable [SemilatticeSup σ] [OrderBot σ]

theorem join_nil : join ([] : List σ) = ⊥ := rfl

theorem join_cons (s : σ) (l : List σ) : join (s :: l) = s ⊔ join l := rfl

end Join

/-- Where the statuses are linearly ordered a join is one of them. -/
theorem join_eq_bot_or_mem [LinearOrder σ] [OrderBot σ] (l : List σ) : join l = ⊥ ∨ join l ∈ l := by
  induction l with
  | nil => exact .inl rfl
  | cons s l ih =>
    rw [join_cons]
    rcases le_total (join l) s with h | h
    · rw [sup_eq_left.mpr h]
      exact .inr List.mem_cons_self
    · rw [sup_eq_right.mpr h]
      exact ih.imp_right (List.mem_cons_of_mem s)

/-! ## Replicas and what is between them -/

/-- What each replica holds of each item, what was sent, and where and as what
each item was made. -/
structure Net (ι κ α σ : Type) where
  held : ι → κ → Option α
  copies : List α
  marks : List (κ × σ)
  made : κ → Option (ι × α)

/-- No mark in flight raises what the replica holds of the item. -/
def Net.Settled (raise : α → σ → α) (n : Net ι κ α σ) (i : ι) (k : κ) : Prop :=
  ∀ a s, n.held i k = some a → (k, s) ∈ n.marks → raise a s = a

/-- Replica `i` holds `a` now. -/
def Net.put [DecidableEq ι] [DecidableEq κ] (key : α → κ) (n : Net ι κ α σ) (i : ι) (a : α) : Net ι κ α σ :=
  { n with held := Function.update n.held i (Function.update (n.held i) (key a) (some a)) }

theorem Net.held_put [DecidableEq ι] [DecidableEq κ] (key : α → κ) (n : Net ι κ α σ) (i j : ι) (k : κ) (a : α) :
    (n.put key i a).held j k = if j = i ∧ k = key a then some a else n.held j k := by
  simp only [Net.put, Function.update_apply]
  by_cases hj : j = i
  · subst hj
    by_cases hk : k = key a
    · simp [hk]
    · simp [hk]
  · simp [hj]

/-- A replica makes an item, sends a copy, takes one, marks its own copy and
sends the mark, or handles a mark that was sent. -/
inductive Step [DecidableEq ι] [DecidableEq κ] (key : α → κ) (raise : α → σ → α) (n : Net ι κ α σ) : Net ι κ α σ → Prop
  | make (i : ι) (a : α) (h : n.made (key a) = none) :
    Step key raise n { n.put key i a with made := Function.update n.made (key a) (some (i, a)) }
  | copy (i : ι) (k : κ) (a : α) (h : n.held i k = some a) : Step key raise n { n with copies := n.copies ++ [a] }
  | take (i : ι) (a : α) (h : a ∈ n.copies) (hnew : n.held i (key a) = none) : Step key raise n (n.put key i a)
  | mark (i : ι) (k : κ) (a : α) (s : σ) (h : n.held i k = some a) :
    Step key raise n { n.put key i (raise a s) with marks := n.marks ++ [(k, s)] }
  | handle (i : ι) (k : κ) (a : α) (s : σ) (h : n.held i k = some a) (hs : (k, s) ∈ n.marks) :
    Step key raise n (n.put key i (raise a s))

/-! ## The invariant -/

section Invariant
variable [SemilatticeSup σ] [OrderBot σ] (key : α → κ) (raise : α → σ → α)

/-- The item as it was made, raised by some of the marks sent for it. -/
def Net.Copy (n : Net ι κ α σ) (a : α) : Prop :=
  ∃ i a₀ l, n.made (key a) = some (i, a₀) ∧ (∀ s ∈ l, (key a, s) ∈ n.marks) ∧ a = raise a₀ (join l)

/-- Whatever is held or in flight is a copy, and an item stays where it was
made. -/
structure Inv (n : Net ι κ α σ) : Prop where
  held : ∀ i k a, n.held i k = some a → key a = k ∧ n.Copy key raise a
  copies : ∀ a ∈ n.copies, n.Copy key raise a
  kept : ∀ k i a₀, n.made k = some (i, a₀) → ∃ a, n.held i k = some a

variable {key raise} {n n' : Net ι κ α σ} {a b : α}

theorem Net.Copy.mono (h : n.Copy key raise a) (hmade : ∀ k p, n.made k = some p → n'.made k = some p)
    (hmarks : ∀ m ∈ n.marks, m ∈ n'.marks) : n'.Copy key raise a := by
  obtain ⟨i, a₀, l, hm, hl, ha⟩ := h
  exact ⟨i, a₀, l, hmade _ _ hm, fun s hs => hmarks _ (hl s hs), ha⟩

theorem Inv.init (hheld : ∀ i k, n.held i k = none) (hcopies : n.copies = []) (hmade : ∀ k, n.made k = none) :
    Inv key raise n where
  held i k a h := by rw [hheld i k] at h; cases h
  copies a h := by rw [hcopies] at h; cases h
  kept k i a h := by rw [hmade k] at h; cases h

variable (hbot : ∀ a, raise a ⊥ = a) (hsup : ∀ a s t, raise (raise a s) t = raise a (s ⊔ t))
  (hkey : ∀ a s, key (raise a s) = key a)

include hsup hkey in
theorem Net.Copy.raised {s : σ} (h : n.Copy key raise a) (hs : (key a, s) ∈ n.marks) :
    n.Copy key raise (raise a s) := by
  obtain ⟨i, a₀, l, hm, hl, ha⟩ := h
  refine ⟨i, a₀, s :: l, by rwa [hkey], fun t ht => ?_, ?_⟩
  · rw [hkey]
    rcases List.mem_cons.mp ht with rfl | ht
    · exact hs
    · exact hl t ht
  · rw [join_cons, sup_comm, ← hsup, ← ha]

include hbot hsup in
theorem raise_join {l : List σ} (h : ∀ s ∈ l, raise a s = a) : raise a (join l) = a := by
  induction l with
  | nil => rw [join_nil, hbot]
  | cons s l ih =>
    rw [join_cons, ← hsup, h s (by simp)]
    exact ih fun t ht => h t (by simp [ht])

/-- Two replicas hold copies of one item, raised by some of its marks each. -/
theorem Inv.both (h : Inv key raise n) {i j : ι} {k : κ} (ha : n.held i k = some a) (hb : n.held j k = some b) :
    ∃ p l l', n.made k = some p ∧ (∀ s ∈ l, (k, s) ∈ n.marks) ∧ (∀ s ∈ l', (k, s) ∈ n.marks) ∧
      a = raise p.2 (join l) ∧ b = raise p.2 (join l') := by
  obtain ⟨hka, i', a₀, l, hma, hl, hla⟩ := h.held i k a ha
  obtain ⟨hkb, j', b₀, l', hmb, hl', hlb⟩ := h.held j k b hb
  rw [hka] at hma hl
  rw [hkb] at hmb hl'
  obtain ⟨rfl, rfl⟩ := Prod.mk.inj (Option.some.inj (hma.symm.trans hmb))
  exact ⟨(i', a₀), l, l', hma, hl, hl', hla, hlb⟩

include hbot hsup in
/-- Settled replicas hold the same copy of an item: each has what raised the
other's. -/
theorem Inv.agree (h : Inv key raise n) {i j : ι} {k : κ} (hi : n.Settled raise i k) (hj : n.Settled raise j k)
    (ha : n.held i k = some a) (hb : n.held j k = some b) : a = b := by
  obtain ⟨p, l, l', -, hl, hl', hla, hlb⟩ := h.both ha hb
  have hal : raise a (join l') = a := raise_join hbot hsup fun s hs => hi a s ha (hl' s hs)
  have hbl : raise b (join l) = b := raise_join hbot hsup fun s hs => hj b s hb (hl s hs)
  calc a = raise (raise p.2 (join l)) (join l') := by rw [← hla, hal]
    _ = raise (raise p.2 (join l')) (join l) := by rw [hsup, hsup, sup_comm]
    _ = b := by rw [← hlb, hbl]

/-! ## Steps keep it -/

section Steps
variable [DecidableEq ι] [DecidableEq κ]

theorem Inv.put (h : Inv key raise n) {i : ι} (hheld : n'.held = (n.put key i a).held) (hcopies : n'.copies = n.copies)
    (hmade : ∀ k p, n.made k = some p → n'.made k = some p) (hmarks : ∀ m ∈ n.marks, m ∈ n'.marks)
    (ha : n'.Copy key raise a) (hkept : ∀ k p, n'.made k = some p → n.made k = some p ∨ p.1 = i ∧ k = key a) :
    Inv key raise n' where
  held j k b hb := by
    rw [hheld, Net.held_put] at hb
    split at hb
    · next hjk =>
      cases hb
      exact ⟨hjk.2.symm, ha⟩
    · exact ⟨(h.held j k b hb).1, (h.held j k b hb).2.mono hmade hmarks⟩
  copies b hb := by
    rw [hcopies] at hb
    exact (h.copies b hb).mono hmade hmarks
  kept k j a₀ hk := by
    rw [hheld]
    simp only [Net.held_put]
    split
    · exact ⟨a, rfl⟩
    · next hne =>
      rcases hkept k (j, a₀) hk with hk | hk
      · exact h.kept k j a₀ hk
      · exact absurd hk hne

include hbot hsup hkey in
theorem Inv.step (h : Inv key raise n) (hstep : Step key raise n n') : Inv key raise n' := by
  cases hstep with
  | make i a hnew =>
    refine h.put rfl rfl (fun k p hk => ?_) (fun _ hm => hm) ⟨i, a, [], Function.update_self .., by simp, (hbot a).symm⟩
      fun k p hk => ?_
    · have hne : k ≠ key a := by
        rintro rfl
        rw [hnew] at hk
        cases hk
      simpa only [Function.update_of_ne hne] using hk
    · simp only [Function.update_apply] at hk
      split at hk
      · next hka =>
        cases hk
        exact .inr ⟨rfl, hka⟩
      · exact .inl hk
  | copy i k a ha =>
    refine ⟨h.held, fun b hb => ?_, h.kept⟩
    rcases List.mem_append.mp hb with hb | hb
    · exact h.copies b hb
    · rw [List.mem_singleton.mp hb]
      exact (h.held i k a ha).2
  | take i a ha hnew => exact h.put rfl rfl (fun _ _ hk => hk) (fun _ hm => hm) (h.copies a ha) fun _ _ hk => .inl hk
  | mark i k a s ha =>
    obtain ⟨rfl, hcopy⟩ := h.held i k a ha
    have hmarks : ∀ m ∈ n.marks, m ∈ n.marks ++ [(key a, s)] := fun m hm => List.mem_append_left _ hm
    refine h.put rfl rfl (fun _ _ hk => hk) hmarks (Net.Copy.raised hsup hkey ?_ ?_) fun _ _ hk => .inl hk
    · exact hcopy.mono (fun _ _ hk => hk) hmarks
    · exact List.mem_append_right _ (List.mem_singleton.mpr rfl)
  | handle i k a s ha hs =>
    obtain ⟨rfl, hcopy⟩ := h.held i k a ha
    exact h.put rfl rfl (fun _ _ hk => hk) (fun _ hm => hm) (hcopy.raised hsup hkey hs) fun _ _ hk => .inl hk

end Steps

end Invariant

/-! ## Rounds -/

/-- A round of steps, of which each reaches its own goal and keeps the goals
of the others. -/
theorem round {S A : Type} {step : S → A → S} {I : S → Prop} {P : A → S → Prop} {l : List A}
    (hstep : ∀ a ∈ l, ∀ s, I s → I (step s a) ∧ P a (step s a) ∧ ∀ b ∈ l, P b s → P b (step s a)) {s : S} (hs : I s) :
    I (l.foldl step s) ∧ ∀ a ∈ l, P a (l.foldl step s) := by
  induction l using List.reverseRecOn with
  | nil => exact ⟨hs, fun a ha => by cases ha⟩
  | append_singleton l a ih =>
    obtain ⟨hI, hP⟩ := ih fun b hb s hs => by
      obtain ⟨h₁, h₂, h₃⟩ := hstep b (List.mem_append_left _ hb) s hs
      exact ⟨h₁, h₂, fun c hc => h₃ c (List.mem_append_left _ hc)⟩
    obtain ⟨hI', hPa, hkeep⟩ := hstep a (List.mem_append_right _ List.mem_cons_self) _ hI
    rw [List.foldl_append]
    refine ⟨hI', fun b hb => ?_⟩
    rcases List.mem_append.mp hb with hb' | hb'
    · exact hkeep b hb (hP b hb')
    · rw [List.mem_singleton.mp hb']
      exact hPa
end Replicated
