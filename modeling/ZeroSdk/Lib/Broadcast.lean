/-
A broadcast channel, as one of its receivers sees it. The channel keeps the
last `capacity` values. A receiver that falls further behind loses the oldest
of those it has not received, is told once how many, and goes on with the
oldest one kept.

`Accounts` says what the items a receiver got tell of the values that were
sent: all of them, in order, each received once or counted as lost. `Faithful`
is the invariant that sending and receiving keep in any order.
-/
import Mathlib.Tactic.Common

namespace Broadcast
variable {α : Type}

/-- What was sent since the receiver subscribed, and how much of it is behind
the receiver. -/
@[ext]
structure Receiver (α : Type) where
  sent : List α
  next : Nat

/-- An item: a value, or the number of values lost before the next one. -/
abbrev Item (α : Type) := Except Nat α

namespace Receiver

/-- A receiver that has just subscribed. -/
def fresh : Receiver α := ⟨[], 0⟩

def send (r : Receiver α) (x : α) : Receiver α := { r with sent := r.sent ++ [x] }

/-- The next item, unless the receiver has caught up. -/
def recv (capacity : Nat) (r : Receiver α) : Option (Item α) × Receiver α :=
  if capacity < r.sent.length - r.next then
    (some (.error (r.sent.length - r.next - capacity)), { r with next := r.sent.length - capacity })
  else
    match r.sent[r.next]? with
    | some x => (some (.ok x), { r with next := r.next + 1 })
    | none => (none, r)

example : (recv 2 ⟨[1, 2, 3, 4, 5], 1⟩).1 = some (.error 2) ∧ (recv 2 ⟨[1, 2, 3, 4, 5], 3⟩).1 = some (.ok 4) := by decide

theorem recv_cases (capacity : Nat) {r : Receiver α} (h : r.next ≤ r.sent.length) :
    (∃ skipped, 0 < skipped ∧ r.next + skipped + capacity = r.sent.length ∧
      r.recv capacity = (some (.error skipped), { r with next := r.next + skipped })) ∨
    (∃ x, r.sent[r.next]? = some x ∧ r.recv capacity = (some (.ok x), { r with next := r.next + 1 })) ∨
    (r.next = r.sent.length ∧ r.recv capacity = (none, r)) := by
  unfold recv
  split
  · next hlag =>
    refine .inl ⟨r.sent.length - r.next - capacity, by omega, by omega, ?_⟩
    rw [show r.sent.length - capacity = r.next + (r.sent.length - r.next - capacity) by omega]
  · split
    · next x hx => exact .inr (.inl ⟨x, hx, rfl⟩)
    · next hx =>
      have hlen : r.sent.length ≤ r.next := List.getElem?_eq_none_iff.mp hx
      exact .inr (.inr ⟨by omega, rfl⟩)

theorem recv_sent (capacity : Nat) (r : Receiver α) : (r.recv capacity).2.sent = r.sent := by
  unfold recv
  split
  · rfl
  · split <;> rfl

/-- Nothing is received exactly by a receiver that has caught up. -/
theorem recv_eq_none (capacity : Nat) {r : Receiver α} (h : r.next ≤ r.sent.length) :
    (r.recv capacity).1 = none ↔ r.next = r.sent.length := by
  rcases recv_cases capacity h with ⟨skipped, hpos, hlen, heq⟩ | ⟨x, hx, heq⟩ | ⟨hend, heq⟩
  · rw [heq]
    exact iff_of_false (Option.some_ne_none _) (by omega)
  · have hlt : r.next < r.sent.length := (List.getElem?_eq_some_iff.mp hx).1
    rw [heq]
    exact iff_of_false (Option.some_ne_none _) (by omega)
  · rw [heq]
    exact iff_of_true rfl hend

end Receiver

/-! ## What the items tell -/

/-- The items tell of the values: each was received, or is one of a number
reported as lost. -/
inductive Accounts : List (Item α) → List α → Prop
  | nil : Accounts [] []
  | received {items l} (x : α) : Accounts items l → Accounts (items ++ [.ok x]) (l ++ [x])
  | lost {items l} (skipped : List α) (h : skipped ≠ []) : Accounts items l →
    Accounts (items ++ [.error skipped.length]) (l ++ skipped)

/-- The values among the items. -/
def values (items : List (Item α)) : List α := items.filterMap Except.toOption

theorem values_append (items items' : List (Item α)) : values (items ++ items') = values items ++ values items' := List.filterMap_append

namespace Accounts
variable {items : List (Item α)} {l : List α}

theorem values_sublist (h : Accounts items l) : (values items).Sublist l := by
  induction h with
  | nil => exact List.Sublist.slnil
  | received x _ ih =>
    rw [values_append]
    exact ih.append (List.Sublist.refl _)
  | lost skipped _ _ ih =>
    rw [values_append]
    exact ih.append (List.nil_sublist _)

/-- Nothing goes missing when no loss is reported. -/
theorem values_eq (h : Accounts items l) (hok : ∀ n, .error n ∉ items) : values items = l := by
  induction h with
  | nil => rfl
  | received x _ ih =>
    rw [values_append, ih fun n hn => hok n (List.mem_append_left _ hn)]
    rfl
  | lost skipped _ _ _ => exact absurd (List.mem_append_right _ List.mem_cons_self) (hok _)

end Accounts

/-- The items tell of all that is behind the receiver. -/
structure Faithful (r : Receiver α) (items : List (Item α)) : Prop where
  next_le : r.next ≤ r.sent.length
  accounts : Accounts items (r.sent.take r.next)

namespace Faithful
variable {r : Receiver α} {items : List (Item α)}

theorem fresh : Faithful (Receiver.fresh : Receiver α) [] := ⟨Nat.le_refl 0, .nil⟩

theorem send (h : Faithful r items) (x : α) : Faithful (r.send x) items := by
  refine ⟨?_, ?_⟩
  · have hlen : (r.send x).sent.length = r.sent.length + 1 := List.length_append
    have := h.next_le
    rw [hlen]
    exact Nat.le_succ_of_le this
  · have htake : (r.send x).sent.take r.next = r.sent.take r.next := List.take_append_of_le_length h.next_le
    change Accounts items ((r.send x).sent.take r.next)
    rw [htake]
    exact h.accounts

theorem recv (h : Faithful r items) (capacity : Nat) :
    Faithful (r.recv capacity).2 (items ++ (r.recv capacity).1.toList) := by
  rcases Receiver.recv_cases capacity h.next_le with ⟨skipped, hpos, hlen, heq⟩ | ⟨x, hx, heq⟩ | ⟨-, heq⟩
  · have hskipped : ((r.sent.drop r.next).take skipped).length = skipped := by
      rw [List.length_take, List.length_drop]
      omega
    have hne : (r.sent.drop r.next).take skipped ≠ [] := by
      intro hnil
      rw [hnil] at hskipped
      exact absurd hskipped (by simpa using Nat.ne_of_lt hpos)
    have hlost := h.accounts.lost _ hne
    rw [hskipped, ← List.take_add] at hlost
    rw [heq]
    exact ⟨by change r.next + skipped ≤ r.sent.length; omega, hlost⟩
  · obtain ⟨hlt, hget⟩ := List.getElem?_eq_some_iff.mp hx
    have hreceived : Accounts (items ++ [.ok x]) (r.sent.take (r.next + 1)) := by
      rw [List.take_succ_eq_append_getElem hlt, hget]
      exact h.accounts.received x
    rw [heq]
    exact ⟨hlt, hreceived⟩
  · rw [heq, Option.toList_none, List.append_nil]
    exact h

end Faithful

end Broadcast
