/-
A cache of bounded size that forgets the least recently put key. `put`
inserts a key or promotes it, `peek` looks without promoting.

Where only keys that `peek` does not find are put, the cache is a window:
it holds the last `capacity` keys put (`Window`), and a key comes again only
when `capacity` others have come in between (`Spaced.gap`).
-/
import Mathlib.Data.List.Basic
import Mathlib.Data.List.DropRight
import Mathlib.Data.List.Nodup

/-- The keys, the most recently put first. -/
structure Lru (α : Type) where
  capacity : Nat
  entries : List α
  pos : 0 < capacity
  nodup : entries.Nodup
  length_le : entries.length ≤ capacity

namespace Lru
variable {α : Type}

def new (capacity : Nat) (pos : 0 < capacity) : Lru α := ⟨capacity, [], pos, .nil, Nat.zero_le _⟩

variable [DecidableEq α]

/-- Whether the key is there. -/
def peek (c : Lru α) (x : α) : Bool := x ∈ c.entries

/-- Inserts or promotes the key; the key put longest ago goes when there are
too many. -/
def put (c : Lru α) (x : α) : Lru α where
  capacity := c.capacity
  entries := (x :: c.entries.erase x).take c.capacity
  pos := c.pos
  nodup := by
    have herase : (c.entries.erase x).Nodup := c.nodup.erase x
    have hx : x ∉ c.entries.erase x := c.nodup.not_mem_erase
    exact (List.nodup_cons.mpr ⟨hx, herase⟩).sublist (List.take_sublist _ _)
  length_le := List.length_take_le _ _

@[simp] theorem peek_eq_true {c : Lru α} {x : α} : c.peek x = true ↔ x ∈ c.entries := decide_eq_true_iff

@[simp] theorem capacity_put (c : Lru α) (x : α) : (c.put x).capacity = c.capacity := rfl

theorem entries_put_of_notMem {c : Lru α} {x : α} (h : x ∉ c.entries) :
    (c.put x).entries = (x :: c.entries).take c.capacity := by
  change (x :: c.entries.erase x).take c.capacity = _
  rw [List.erase_of_not_mem h]

end Lru

/-- No element of the list is among the `n` elements after it. -/
def Spaced {α : Type} (n : Nat) : List α → Prop
  | [] => True
  | x :: l => x ∉ l.take n ∧ Spaced n l

namespace Spaced
variable {α β : Type} {n : Nat} {l : List α}

theorem of_map {f : α → β} (h : Spaced n (l.map f)) : Spaced n l := by
  induction l with
  | nil => trivial
  | cons x l ih =>
    obtain ⟨hx, hl⟩ := h
    refine ⟨fun hmem => hx ?_, ih hl⟩
    rw [← List.map_take]
    exact List.mem_map_of_mem hmem

theorem of_append {p : List α} (h : Spaced n (p ++ l)) : Spaced n l := by
  induction p with
  | nil => exact h
  | cons x p ih => exact ih h.2

/-- Any `n + 1` elements in a row are distinct. -/
theorem nodup_take (h : Spaced n l) : (l.take (n + 1)).Nodup := by
  induction l with
  | nil => exact .nil
  | cons x l ih =>
    obtain ⟨hx, hl⟩ := h
    have hsub : (l.take n).Sublist (l.take (n + 1)) := List.take_sublist_take_left (Nat.le_succ n)
    exact List.nodup_cons.mpr ⟨hx, (ih hl).sublist hsub⟩

/-- Between two occurrences of an element there are `n` other ones. -/
theorem gap {p mid q : List α} {x : α} (h : Spaced n (p ++ x :: (mid ++ x :: q))) : n ≤ mid.length := by
  obtain ⟨hx, -⟩ := h.of_append
  by_contra hlt
  obtain ⟨k, hk⟩ : ∃ k, n - mid.length = k + 1 := ⟨n - mid.length - 1, by omega⟩
  rw [List.take_append, hk, List.take_succ_cons] at hx
  exact hx (List.mem_append_right _ List.mem_cons_self)

end Spaced

/-- The last `c` elements of a list are those with fewer than `c` behind them. -/
theorem mem_rtake_iff {α : Type} {c : Nat} {l : List α} {a : α} :
    a ∈ l.rtake c ↔ ∃ p q, l = p ++ a :: q ∧ q.length < c := by
  constructor
  · intro h
    obtain ⟨p, q, hsplit⟩ := List.append_of_mem h
    have hlen := congrArg List.length hsplit
    refine ⟨l.take (l.length - c) ++ p, q, ?_, ?_⟩
    · rw [List.append_assoc, ← hsplit]
      exact (List.take_append_drop _ l).symm
    · simp [List.rtake] at hlen
      omega
  · intro ⟨p, q, heq, hlt⟩
    subst heq
    have hdrop : (p ++ a :: q).rtake c = p.drop ((p ++ a :: q).length - c) ++ a :: q := by
      unfold List.rtake
      rw [List.drop_append_of_le_length]
      simp
      omega
    rw [hdrop]
    exact List.mem_append_right _ List.mem_cons_self

namespace Lru
variable {α : Type} [DecidableEq α]

/-- The cache holds the last keys of `hist`, the history of puts with the
newest first, and each was put when it was not there. -/
structure Window (c : Lru α) (hist : List α) : Prop where
  entries_eq : c.entries = hist.take c.capacity
  spaced : Spaced c.capacity hist

omit [DecidableEq α] in
theorem window_new (capacity : Nat) (pos : 0 < capacity) : Window (new capacity pos : Lru α) [] :=
  ⟨List.take_nil.symm, trivial⟩

theorem Window.peek_iff {c : Lru α} {hist : List α} (h : Window c hist) {x : α} :
    c.peek x = true ↔ x ∈ hist.take c.capacity := by
  rw [peek_eq_true, h.entries_eq]

theorem Window.put {c : Lru α} {hist : List α} (h : Window c hist) {x : α} (hx : c.peek x = false) :
    Window (c.put x) (x :: hist) := by
  have hnot : x ∉ c.entries := by simpa [peek] using hx
  refine ⟨?_, ?_, h.spaced⟩
  · obtain ⟨k, hk⟩ : ∃ k, c.capacity = k + 1 := ⟨c.capacity - 1, by have := c.pos; omega⟩
    rw [entries_put_of_notMem hnot, h.entries_eq, capacity_put, hk, List.take_succ_cons, List.take_succ_cons,
      List.take_take, Nat.min_eq_left (Nat.le_succ k)]
  · rw [capacity_put, ← h.entries_eq]
    exact hnot

end Lru
