/-
Finite maps over a linear order, kept as the strictly ascending list of
their entries, with the two iterators an ordered store offers: forward from
a key and backward from a key.

A map is its lookups (`ext`), and an update changes the lookup of its own
key alone (`get_put`, `get_delete`). A scan that starts at a key and stops
at the first entry failing a test returns exactly the entries that pass it,
when the test cannot hold again further on (`takeWhile_forwardFrom`,
`takeWhile_reverseFrom`). Sorted by something else, a scan keeps its own
order where that leaves it open (`insertionSort_stable`).
-/
import Mathlib.Data.List.Basic
import Mathlib.Data.List.Sort
import Mathlib.Data.Set.List
import Mathlib.Order.Lattice

/-- A finite map: its entries, strictly ascending by key. -/
structure OrdMap (K V : Type) [LinearOrder K] where
  entries : List (K × V)
  sorted : entries.Pairwise (·.1 < ·.1)

namespace OrdMap
variable {K V : Type} [LinearOrder K]

/-- The map with no entry. -/
def empty : OrdMap K V := ⟨[], .nil⟩

/-- The entry under `k` in a list of entries. -/
def lookup (k : K) : List (K × V) → Option V
  | [] => none
  | (k', v) :: l => if k' = k then some v else lookup k l

def get (m : OrdMap K V) (k : K) : Option V := lookup k m.entries

/-- Replaces the entry under `k`, or adds one in its place in the order. -/
def insertEntry (k : K) (v : V) : List (K × V) → List (K × V)
  | [] => [(k, v)]
  | (k', v') :: l =>
    if k < k' then (k, v) :: (k', v') :: l
    else if k = k' then (k, v) :: l
    else (k', v') :: insertEntry k v l

theorem mem_insertEntry {k : K} {v : V} {l : List (K × V)} {e : K × V} (h : e ∈ insertEntry k v l) :
    e = (k, v) ∨ e ∈ l := by
  induction l with
  | nil => simpa [insertEntry] using h
  | cons p l ih =>
    obtain ⟨k', v'⟩ := p
    simp only [insertEntry] at h
    split at h
    · simpa using h
    split at h
    · simp only [List.mem_cons] at h ⊢; tauto
    · simp only [List.mem_cons] at h ⊢
      rcases h with h | h
      · exact .inr (.inl h)
      · exact (ih h).imp_right .inr

theorem insertEntry_sorted {k : K} {v : V} {l : List (K × V)} (h : l.Pairwise (·.1 < ·.1)) :
    (insertEntry k v l).Pairwise (·.1 < ·.1) := by
  induction l with
  | nil => simp [insertEntry]
  | cons p l ih =>
    obtain ⟨k', v'⟩ := p
    obtain ⟨hk, hl⟩ := List.pairwise_cons.mp h
    simp only [insertEntry]
    split
    · next hlt =>
      refine List.pairwise_cons.mpr ⟨fun e he => ?_, h⟩
      rcases List.mem_cons.mp he with rfl | he
      · exact hlt
      · exact lt_trans hlt (hk e he)
    split
    · next heq => subst heq; exact List.pairwise_cons.mpr ⟨hk, hl⟩
    · next hlt hne =>
      refine List.pairwise_cons.mpr ⟨fun e he => ?_, ih hl⟩
      rcases mem_insertEntry he with rfl | he
      · exact lt_of_le_of_ne (not_lt.mp hlt) (Ne.symm hne)
      · exact hk e he

def put (m : OrdMap K V) (k : K) (v : V) : OrdMap K V := ⟨insertEntry k v m.entries, insertEntry_sorted m.sorted⟩

def delete (m : OrdMap K V) (k : K) : OrdMap K V :=
  ⟨m.entries.filter (fun e => e.1 ≠ k), m.sorted.sublist List.filter_sublist⟩

/-- The entries from `k` on, ascending: an iterator positioned at the least
key not below `k`. -/
def forwardFrom (m : OrdMap K V) (k : K) : List (K × V) := m.entries.filter fun e => k ≤ e.1

/-- The entries down from `k`, descending: an iterator positioned at the
greatest key not above `k`. -/
def reverseFrom (m : OrdMap K V) (k : K) : List (K × V) := (m.entries.filter fun e => e.1 ≤ k).reverse

/-- The entries whose key passes `p`, ascending. -/
def select (m : OrdMap K V) (p : K → Bool) : List (K × V) := m.entries.filter fun e => p e.1

/-! ## Lookups -/

theorem lookup_eq_some {k : K} {v : V} {l : List (K × V)} (h : l.Pairwise (·.1 < ·.1)) :
    lookup k l = some v ↔ (k, v) ∈ l := by
  induction l with
  | nil => simp [lookup]
  | cons p l ih =>
    obtain ⟨k', v'⟩ := p
    obtain ⟨hk, hl⟩ := List.pairwise_cons.mp h
    simp only [lookup, List.mem_cons, Prod.mk.injEq]
    split
    · next heq =>
      subst heq
      constructor
      · intro h; cases h; exact .inl ⟨rfl, rfl⟩
      · rintro (⟨-, rfl⟩ | h)
        · rfl
        · exact absurd (hk _ h) (lt_irrefl _)
    · next hne =>
      rw [ih hl]
      exact ⟨.inr, fun h => h.resolve_left fun h => hne h.1.symm⟩

theorem mem_entries {m : OrdMap K V} {k : K} {v : V} : (k, v) ∈ m.entries ↔ m.get k = some v :=
  (lookup_eq_some m.sorted).symm

@[ext] theorem ext {m m' : OrdMap K V} (h : ∀ k, m.get k = m'.get k) : m = m' := by
  have hmem : ∀ e, e ∈ m.entries ↔ e ∈ m'.entries := fun ⟨k, v⟩ => by
    rw [mem_entries, mem_entries, h]
  have hnodup : ∀ {m : OrdMap K V}, m.entries.Nodup := fun {m} =>
    m.sorted.imp fun {a b} hab (heq : a = b) => absurd hab (heq ▸ lt_irrefl _)
  have hperm : m.entries.Perm m'.entries := (List.perm_ext_iff_of_nodup hnodup hnodup).mpr hmem
  have heq : m.entries = m'.entries := hperm.eq_of_pairwise
    (fun a b _ _ hab hba => absurd (lt_trans hab hba) (lt_irrefl _)) m.sorted m'.sorted
  cases m; cases m'; simp_all

theorem lookup_insertEntry (k k' : K) (v : V) (l : List (K × V)) :
    lookup k' (insertEntry k v l) = if k' = k then some v else lookup k' l := by
  induction l with
  | nil => simp [insertEntry, lookup, eq_comm]
  | cons p l ih =>
    obtain ⟨a, w⟩ := p
    simp only [insertEntry]
    split
    · simp [lookup, eq_comm]
    split
    · next heq =>
      subst heq
      by_cases hk : k' = k
      · simp [lookup, hk]
      · simp [lookup, hk, Ne.symm hk]
    · next hne =>
      simp only [lookup, ih]
      by_cases hk : k' = k
      · subst hk; simp [Ne.symm hne]
      · simp [hk]

@[simp] theorem get_empty (k : K) : (empty : OrdMap K V).get k = none := rfl

theorem get_put (m : OrdMap K V) (k k' : K) (v : V) :
    (m.put k v).get k' = if k' = k then some v else m.get k' := lookup_insertEntry k k' v m.entries

theorem length_insertEntry {k : K} {l : List (K × V)} (h : lookup k l = none) (v : V) :
    (insertEntry k v l).length = l.length + 1 := by
  induction l with
  | nil => rfl
  | cons p l ih =>
    obtain ⟨k', v'⟩ := p
    simp only [lookup] at h
    simp only [insertEntry]
    split at h
    · cases h
    · next hne =>
      split
      · rfl
      · rw [if_neg (Ne.symm hne), List.length_cons, ih h, List.length_cons]

theorem length_put {m : OrdMap K V} {k : K} (h : m.get k = none) (v : V) :
    (m.put k v).entries.length = m.entries.length + 1 := length_insertEntry h v

@[simp] theorem get_put_self (m : OrdMap K V) (k : K) (v : V) : (m.put k v).get k = some v := by
  simp [get_put]

theorem get_put_of_ne (m : OrdMap K V) {k k' : K} (v : V) (h : k' ≠ k) : (m.put k v).get k' = m.get k' := by
  simp [get_put, h]

theorem get_delete (m : OrdMap K V) (k k' : K) :
    (m.delete k).get k' = if k' = k then none else m.get k' := by
  apply Option.ext
  intro v
  rw [← mem_entries]
  simp only [delete, List.mem_filter, mem_entries, decide_eq_true_eq]
  by_cases h : k' = k <;> simp [h]

/-! ## Scans -/

theorem takeWhile_eq_filter {α : Type} {p : α → Bool} {l : List α}
    (h : l.Pairwise fun a b => p b = true → p a = true) : l.takeWhile p = l.filter p := by
  induction l with
  | nil => rfl
  | cons a l ih =>
    obtain ⟨ha, hl⟩ := List.pairwise_cons.mp h
    by_cases hp : p a = true
    · simp [hp, ih hl]
    · have hnone : l.filter p = [] := List.filter_eq_nil_iff.mpr fun b hb hpb => hp (ha b hb hpb)
      simp [hp, hnone]

/-- A forward scan from `lo` that stops at the first key failing `p` returns
the entries passing `p`, when those are the first keys from `lo` on. -/
theorem takeWhile_forwardFrom {m : OrdMap K V} {lo : K} {p : K → Bool} (hlo : ∀ k, p k = true → lo ≤ k)
    (hp : ∀ k k', lo ≤ k → k < k' → p k' = true → p k = true) :
    (m.forwardFrom lo).takeWhile (fun e => p e.1) = m.select p := by
  have hpw : (m.forwardFrom lo).Pairwise fun a b => p b.1 = true → p a.1 = true := by
    refine List.Pairwise.imp_of_mem (fun {a b} ha _ hab => ?_) (m.sorted.sublist List.filter_sublist)
    exact hp a.1 b.1 (by simpa using (List.mem_filter.mp ha).2) hab
  rw [takeWhile_eq_filter hpw, forwardFrom, select, List.filter_filter]
  refine List.filter_congr fun e _ => ?_
  by_cases hpe : p e.1 = true
  · simp [hpe, hlo _ hpe]
  · simp [hpe]

/-- A backward scan from `hi`, for entries that are the last keys up to `hi`. -/
theorem takeWhile_reverseFrom {m : OrdMap K V} {hi : K} {p : K → Bool}
    (hp : ∀ a ∈ m.entries, ∀ b ∈ m.entries, a.1 < b.1 → b.1 ≤ hi → p a.1 = true → p b.1 = true) :
    (m.reverseFrom hi).takeWhile (fun e => p e.1) = (m.select fun k => p k && decide (k ≤ hi)).reverse := by
  have hpw : (m.reverseFrom hi).Pairwise fun a b => p b.1 = true → p a.1 = true := by
    rw [reverseFrom, List.pairwise_reverse]
    refine List.Pairwise.imp_of_mem (fun {a b} ha hb hab => ?_) (m.sorted.sublist List.filter_sublist)
    rw [List.mem_filter] at ha hb
    exact hp a ha.1 b hb.1 hab (by simpa using hb.2)
  rw [takeWhile_eq_filter hpw, reverseFrom, select, List.filter_reverse, List.filter_filter]

/-! ## Sorting a scan -/

section Stable
variable {α : Type} {r s : α → α → Prop} [DecidableRel r]

theorem orderedInsert_stable (htotal : ∀ a b, r a b ∨ r b a) (htrans : ∀ a b c, r a b → r b c → r a c) {a : α}
    {l : List α} (hl : l.Pairwise fun a b => r a b ∧ (r b a → s a b)) (ha : ∀ b ∈ l, s a b) :
    (l.orderedInsert r a).Pairwise fun a b => r a b ∧ (r b a → s a b) := by
  induction l with
  | nil => simp
  | cons b l ih =>
    obtain ⟨hb, hl'⟩ := List.pairwise_cons.mp hl
    rw [List.orderedInsert_cons]
    split
    · next hab =>
      refine List.pairwise_cons.mpr ⟨fun c hc => ⟨?_, fun _ => ha c hc⟩, hl⟩
      rcases List.mem_cons.mp hc with rfl | hc
      · exact hab
      · exact htrans a b c hab (hb c hc).1
    · next hab =>
      refine List.pairwise_cons.mpr ⟨fun c hc => ?_, ih hl' fun c hc => ha c (List.mem_cons_of_mem _ hc)⟩
      rcases (List.mem_orderedInsert r).mp hc with rfl | hc
      · exact ⟨(htotal c b).resolve_left hab, fun h => absurd h hab⟩
      · exact hb c hc

/-- The sort is stable: what it does not order stays in the order of the list. -/
theorem insertionSort_stable (htotal : ∀ a b, r a b ∨ r b a) (htrans : ∀ a b c, r a b → r b c → r a c) {l : List α}
    (hl : l.Pairwise s) : (l.insertionSort r).Pairwise fun a b => r a b ∧ (r b a → s a b) := by
  induction l with
  | nil => simp
  | cons a l ih =>
    obtain ⟨ha, hl'⟩ := List.pairwise_cons.mp hl
    rw [List.insertionSort_cons]
    exact orderedInsert_stable htotal htrans (ih hl') fun b hb => ha b ((List.mem_insertionSort r).mp hb)

end Stable

/-! ## Entries as records -/

theorem mem_select {m : OrdMap K V} {p : K → Bool} {k : K} {v : V} :
    (k, v) ∈ m.select p ↔ m.get k = some v ∧ p k = true := by
  rw [select, List.mem_filter, mem_entries]

theorem select_sorted (m : OrdMap K V) (p : K → Bool) : (m.select p).Pairwise (·.1 < ·.1) :=
  m.sorted.sublist List.filter_sublist

theorem select_congr {m m' : OrdMap K V} {p : K → Bool} (h : ∀ k, p k = true → m.get k = m'.get k) :
    m.select p = m'.select p := by
  refine (select_sorted m p).eq_of_mem_iff (select_sorted m' p) fun ⟨k, v⟩ => ?_
  rw [mem_select, mem_select]
  exact and_congr_left fun hk => by rw [h k hk]

/-- Where the entries passing `p` are the images of the records in `Q`, they
list these records by ascending key. -/
theorem select_eq_map {α : Type} {m : OrdMap K V} {p : K → Bool} {f : α → K × V} {Q : α → Prop}
    (hf : Function.Injective f) (hread : ∀ k v, m.get k = some v → p k = true → ∃ a, f a = (k, v) ∧ Q a)
    (hstored : ∀ a, Q a → m.get (f a).1 = some (f a).2 ∧ p (f a).1 = true) :
    ∃ l : List α, m.select p = l.map f ∧ (∀ a, a ∈ l ↔ Q a) ∧ l.Pairwise fun a b => (f a).1 < (f b).1 := by
  have hmem : ∀ e ∈ m.select p, ∃ a, f a = e ∧ Q a := by
    intro ⟨k, v⟩ he
    obtain ⟨hv, hk⟩ := mem_select.mp he
    exact hread k v hv hk
  obtain ⟨l, hl⟩ : m.select p ∈ Set.range (List.map f) := by
    rw [Set.range_list_map]
    intro e he
    obtain ⟨a, ha, -⟩ := hmem e he
    exact ⟨a, ha⟩
  have hsorted := select_sorted m p
  rw [← hl, List.pairwise_map] at hsorted
  refine ⟨l, hl.symm, fun a => ⟨fun ha => ?_, fun ha => ?_⟩, hsorted⟩
  · obtain ⟨b, hb, hq⟩ := hmem (f a) (hl ▸ List.mem_map_of_mem ha)
    rwa [← hf hb]
  · have he : f a ∈ l.map f := hl ▸ mem_select.mpr (hstored a ha)
    exact (List.mem_map_of_injective hf).mp he

end OrdMap
