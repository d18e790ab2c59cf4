/-
Last-writer-wins merging: of two values the one with the greater key wins,
the first one on a tie, and the result is put in a normal form.

The merge is associative (`merge_assoc`), so its fold over a list is the
normal form of the first value with the greatest key (`mergeAll_eq`).
Replicas that merge the same values in different orders agree exactly when
the values that share the greatest key have one normal form
(`mergeAll_perm_iff`).
-/
import Mathlib.Data.List.Perm.Basic
import Mathlib.Order.Lattice

namespace Winner
variable {α κ : Type} [LinearOrder κ] (key : α → κ) (norm : α → α)

/-- The value with the greater key; `a` on a tie. -/
def winner (a b : α) : α := if key b ≤ key a then a else b

/-- The winner in normal form. -/
def merge (a b : α) : α := norm (winner key a b)

/-- The fold of a merge over a list, from its first value on. -/
def mergeAll (f : α → α → α) : List α → Option α
  | [] => none
  | a :: l => some (l.foldl f a)

/-- The values of the list with the greatest key. -/
def Top (l : List α) (a : α) : Prop := a ∈ l ∧ ∀ b ∈ l, key b ≤ key a

/-! ## Two values -/

theorem key_winner (a b : α) : key (winner key a b) = max (key a) (key b) := by
  simp only [winner]
  split
  · next h => rw [max_eq_left h]
  · next h => rw [max_eq_right (le_of_not_ge h)]

variable {key}

theorem winner_assoc (a b c : α) : winner key (winner key a b) c = winner key a (winner key b c) := by
  by_cases hbc : key c ≤ key b
  · have hr : winner key b c = b := if_pos hbc
    have hl : key c ≤ key (winner key a b) := by rw [key_winner key]; exact le_trans hbc (le_max_right _ _)
    rw [hr, winner, if_pos hl]
  · have hr : winner key b c = c := if_neg hbc
    rw [hr]
    by_cases hab : key b ≤ key a
    · rw [winner, winner, if_pos hab, winner]
    · have hac : ¬ key c ≤ key a := fun h => hab (le_trans (le_of_not_ge hbc) h)
      have hl : winner key a b = b := if_neg hab
      rw [hl, winner, winner, if_neg hbc, if_neg hac]

section Norm
variable {norm} (hkey : ∀ a, key (norm a) = key a) (hnorm : ∀ a, norm (norm a) = norm a)
include hkey hnorm

/-- Normalising an argument changes nothing in the result. -/
theorem merge_norm_left (a b : α) : merge key norm (norm a) b = merge key norm a b := by
  simp only [merge, winner, hkey]
  split
  · exact hnorm a
  · rfl

theorem merge_norm_right (a b : α) : merge key norm a (norm b) = merge key norm a b := by
  simp only [merge, winner, hkey]
  split
  · rfl
  · exact hnorm b

theorem merge_assoc (a b c : α) :
    merge key norm (merge key norm a b) c = merge key norm a (merge key norm b c) := by
  calc merge key norm (norm (winner key a b)) c
      = norm (winner key (winner key a b) c) := merge_norm_left hkey hnorm _ _
    _ = norm (winner key a (winner key b c)) := by rw [winner_assoc]
    _ = merge key norm a (merge key norm b c) := (merge_norm_right hkey hnorm _ _).symm

/-! ## The fold -/

/-- A fold of at least one merge is the normal form of the fold of winners. -/
theorem foldl_merge (a b : α) (l : List α) :
    (b :: l).foldl (merge key norm) a = norm ((b :: l).foldl (winner key) a) := by
  induction l generalizing a b with
  | nil => rfl
  | cons c l ih =>
    have hstep : (c :: l).foldl (merge key norm) (merge key norm a b) =
        (c :: l).foldl (merge key norm) (winner key a b) := by
      rw [List.foldl_cons, List.foldl_cons]
      congr 1
      exact merge_norm_left hkey hnorm _ _
    rw [List.foldl_cons, hstep, ih]
    rfl

end Norm

theorem foldl_winner_top (a : α) (l : List α) : Top key (a :: l) (l.foldl (winner key) a) := by
  induction l generalizing a with
  | nil => exact ⟨by simp, by simp⟩
  | cons b l ih =>
    obtain ⟨hmem, hmax⟩ := ih (winner key a b)
    have hge : ∀ x, x = a ∨ x = b → key x ≤ key (l.foldl (winner key) (winner key a b)) := by
      intro x hx
      refine le_trans ?_ (hmax (winner key a b) (by simp))
      rw [key_winner key]
      rcases hx with rfl | rfl
      · exact le_max_left _ _
      · exact le_max_right _ _
    constructor
    · rw [List.foldl_cons]
      rcases List.mem_cons.mp hmem with h | h
      · rw [h]; simp only [winner]; split <;> simp
      · simp [h]
    · intro x hx
      simp only [List.mem_cons] at hx
      rcases hx with h | h | h
      · exact hge x (.inl h)
      · exact hge x (.inr h)
      · exact hmax x (by simp [h])

/-- A value with the greatest key that comes first is the winner. -/
theorem foldl_winner_of_top {a : α} {l : List α} (h : ∀ b ∈ l, key b ≤ key a) : l.foldl (winner key) a = a := by
  induction l with
  | nil => rfl
  | cons b l ih =>
    have hab : winner key a b = a := if_pos (h b (by simp))
    rw [List.foldl_cons, hab, ih fun c hc => h c (by simp [hc])]

theorem Top.perm {l l' : List α} {a : α} (h : Top key l a) (hp : l'.Perm l) : Top key l' a :=
  ⟨hp.mem_iff.mpr h.1, fun b hb => h.2 b (hp.mem_iff.mp hb)⟩

section Converge
variable {norm} (hkey : ∀ a, key (norm a) = key a) (hnorm : ∀ a, norm (norm a) = norm a)
include hkey hnorm

/-- The fold over two values or more is the normal form of one with the
greatest key. -/
theorem mergeAll_eq {l : List α} (h : 2 ≤ l.length) :
    ∃ a, Top key l a ∧ mergeAll (merge key norm) l = some (norm a) := by
  match l, h with
  | a :: b :: l, _ => exact ⟨_, foldl_winner_top a (b :: l), congrArg some (foldl_merge hkey hnorm a b l)⟩

theorem mergeAll_cons_top {a : α} {l : List α} (hl : l ≠ []) (h : Top key (a :: l) a) :
    mergeAll (merge key norm) (a :: l) = some (norm a) := by
  cases l with
  | nil => exact absurd rfl hl
  | cons b l =>
    rw [mergeAll, foldl_merge hkey hnorm, foldl_winner_of_top fun c hc => h.2 c (by simp [hc])]

/-- The order of merging does not matter exactly when the values with the
greatest key have one normal form. -/
theorem mergeAll_perm_iff [DecidableEq α] (l : List α) :
    (∀ l', l'.Perm l → mergeAll (merge key norm) l' = mergeAll (merge key norm) l) ↔
      ∀ a b, Top key l a → Top key l b → norm a = norm b := by
  constructor
  · intro h a b ha hb
    by_cases hab : a = b
    · rw [hab]
    -- bring each of the two to the front: there it is the winner
    have front : ∀ x y, x ≠ y → Top key l x → y ∈ l → mergeAll (merge key norm) l = some (norm x) := by
      intro x y hxy hx hy
      have hp : (x :: l.erase x).Perm l := (List.perm_cons_erase hx.1).symm
      have hne : l.erase x ≠ [] := List.ne_nil_of_mem ((List.mem_erase_of_ne (Ne.symm hxy)).mpr hy)
      rw [← h _ hp, mergeAll_cons_top hkey hnorm hne (hx.perm hp)]
    have := (front a b hab ha hb.1).symm.trans (front b a (Ne.symm hab) hb ha.1)
    exact Option.some.inj this
  · intro h l' hp
    by_cases hlen : 2 ≤ l.length
    · obtain ⟨a, ha, hl⟩ := mergeAll_eq hkey hnorm hlen
      obtain ⟨b, hb, hl'⟩ := mergeAll_eq hkey hnorm (hp.length_eq ▸ hlen)
      rw [hl, hl', h b a (hb.perm hp.symm) ha]
    · match l, hlen, hp with
      | [], _, hp => rw [hp.eq_nil]
      | [a], _, hp => rw [List.perm_singleton.mp hp]
      | _ :: _ :: _, hlen, _ => simp at hlen

end Converge

end Winner
