/-
Waiting first come, first served: the queue of a semaphore whose permits go
to the one that waits longest. Who asks for a permit joins the queue unless
it waits already (`join`). Those ahead of it (`ahead`) are given theirs
first, and keep them until their next turn, so it is given one as soon as
more permits are left than others are ahead (`Granted`). A lock is a
semaphore of one permit.
-/
import Mathlib.Data.List.Nodup
import Mathlib.Data.List.TakeDrop

namespace Fifo
variable {α : Type} [DecidableEq α]

def join (q : List α) (w : α) : List α := if w ∈ q then q else q ++ [w]

/-- Who waits before `w`: everybody, if `w` does not wait. -/
def ahead (q : List α) (w : α) : List α := q.takeWhile (· ≠ w)

/-- With `left` permits neither taken nor in use, `w` is given one. -/
def Granted (left : Nat) (q : List α) (w : α) : Prop := (ahead q w).length < left

instance (left : Nat) (q : List α) (w : α) : Decidable (Granted left q w) :=
  inferInstanceAs (Decidable ((ahead q w).length < left))

example : Granted 2 [3, 5, 4] 5 ∧ ¬ Granted 2 [3, 5, 4] 4 ∧ ¬ Granted 3 [3, 5, 4] 7 := by decide

variable {q : List α} {w v : α}

theorem mem_join : v ∈ join q w ↔ v ∈ q ∨ v = w := by
  unfold join
  split
  · next hw => exact ⟨.inl, fun h => h.elim id fun heq => heq ▸ hw⟩
  · rw [List.mem_append, List.mem_singleton]

theorem nodup_join (h : q.Nodup) : (join q w).Nodup := by
  unfold join
  split
  · exact h
  · next hw => exact List.concat_eq_append ▸ h.concat hw

@[simp] theorem ahead_nil (w : α) : ahead [] w = [] := rfl

@[simp] theorem ahead_cons_self (q : List α) (w : α) : ahead (w :: q) w = [] := by simp [ahead]

theorem granted_of_ahead {left : Nat} (h : ahead q w = []) (hleft : 0 < left) : Granted left q w := by
  unfold Granted
  rw [h]
  exact hleft

end Fifo
