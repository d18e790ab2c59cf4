/-
Reading a list page by page with a cursor: each page is the first `n`
entries whose key is below the cursor, the next cursor is the key of the
page's last entry, and an empty page ends the walk.

What a walk returns depends on how the list's order relates to its keys: it
is the list itself, every entry once, exactly when the last entry of each page
has a key below all entries before it and above all entries after it
(`walk_complete_iff`). A list in descending key order is such a list, for
every page size (`aligned_of_descending`).
-/
import Mathlib.Data.List.Basic
import Mathlib.Data.List.Perm.Basic
import Mathlib.Order.Lattice

namespace Paging
variable {α ι ε : Type} (key : α → ι)

/-- Fetches page after page; `none` when a fetch fails or the fuel runs out. -/
def walk (fetch : Option ι → Except ε (List α)) : Nat → Option ι → Option (List (List α))
  | 0, _ => none
  | fuel + 1, c =>
    match fetch c with
    | .error _ => none
    | .ok p =>
      match p.getLast? with
      | none => some []
      | some a => (walk fetch fuel (some (key a))).map (p :: ·)

section Walk
variable {key} {fetch : Option ι → Except ε (List α)}

theorem walk_stop {c : Option ι} (h : fetch c = .ok []) (fuel : Nat) : walk key fetch (fuel + 1) c = some [] := by
  simp only [walk, h]
  rfl

theorem walk_next {c : Option ι} {p : List α} {a : α} (h : fetch c = .ok (p ++ [a])) (fuel : Nat) :
    walk key fetch (fuel + 1) c = (walk key fetch fuel (some (key a))).map ((p ++ [a]) :: ·) := by
  simp only [walk, h, List.getLast?_concat]

theorem walk_mono {fuel fuel' : Nat} {c : Option ι} {ps : List (List α)} (h : walk key fetch fuel c = some ps)
    (hle : fuel ≤ fuel') : walk key fetch fuel' c = some ps := by
  induction fuel generalizing fuel' c ps with
  | zero => cases h
  | succ fuel ih =>
    obtain ⟨fuel', rfl⟩ := Nat.exists_eq_add_of_le' (Nat.le_trans (Nat.le_add_left 1 fuel) hle)
    simp only [walk] at h ⊢
    split at h
    · cases h
    split at h
    · exact h
    · obtain ⟨qs, hqs, rfl⟩ := Option.map_eq_some_iff.mp h
      rw [ih hqs (by omega)]
      rfl

theorem walk_unique {fuel fuel' : Nat} {c : Option ι} {ps ps' : List (List α)}
    (h : walk key fetch fuel c = some ps) (h' : walk key fetch fuel' c = some ps') : ps = ps' := by
  rcases Nat.le_total fuel fuel' with hle | hle
  · exact Option.some.inj ((walk_mono h hle).symm.trans h')
  · exact Option.some.inj (h.symm.trans (walk_mono h' hle))

end Walk

variable [LinearOrder ι]

/-- The entries below the cursor; all of them without one. -/
def below (l : List α) : Option ι → List α
  | none => l
  | some c => l.filter fun a => key a < c

/-- The page at a cursor. -/
def page (l : List α) (n : Nat) (c : Option ι) : List α := (below key l c).take n

/-- Every entry that ends a page has a key below those before it and above
those after it. -/
def Aligned (n : Nat) (l : List α) : Prop :=
  ∀ pre a post, l = pre ++ a :: post → n ∣ pre.length + 1 ∨ post = [] →
    (∀ b ∈ pre, key a < key b) ∧ ∀ b ∈ post, key b < key a

variable {key}

theorem aligned_of_descending {l : List α} (h : l.Pairwise fun a b => key b < key a) (n : Nat) : Aligned key n l := by
  rintro pre a post rfl -
  obtain ⟨-, hpost, hpre⟩ := List.pairwise_append.mp h
  exact ⟨fun b hb => hpre b hb a (by simp), fun b hb => (List.pairwise_cons.mp hpost).1 b hb⟩

section Pages
variable {fetch : Option ι → Except ε (List α)} {l : List α} {n : Nat} (hn : 1 ≤ n)
  (hfetch : ∀ c, fetch c = .ok (page key l n c))
include hn hfetch

/-- One step of the walk at a cursor below which `rest` remains: the end, or
a page `p ++ [a]`, full unless nothing is left after it. -/
theorem walk_cases {c : Option ι} {rest : List α} (hrest : below key l c = rest) :
    (rest = [] ∧ ∀ fuel, walk key fetch (fuel + 1) c = some []) ∨
    ∃ p a tail, rest = p ++ a :: tail ∧ p.length + 1 ≤ n ∧ (tail = [] ∨ p.length + 1 = n) ∧
      ∀ fuel, walk key fetch (fuel + 1) c = (walk key fetch fuel (some (key a))).map ((p ++ [a]) :: ·) := by
  have hf : fetch c = .ok (rest.take n) := by rw [hfetch, page, hrest]
  rcases List.eq_nil_or_concat' (rest.take n) with hnil | ⟨p, a, hpa⟩
  · refine .inl ⟨?_, walk_stop (hnil ▸ hf)⟩
    exact (List.take_eq_nil_iff.mp hnil).resolve_left (by omega)
  · refine .inr ⟨p, a, rest.drop n, ?_, ?_, ?_, walk_next (hpa ▸ hf)⟩
    · rw [List.append_cons, ← hpa, List.take_append_drop]
    · have := List.length_take_le n rest
      rwa [hpa, List.length_append, List.length_singleton] at this
    · have hlen : (rest.take n).length = p.length + 1 := by rw [hpa]; simp
      rw [List.length_take] at hlen
      rcases Nat.lt_or_ge n rest.length with h | h
      · exact .inr (by omega)
      · exact .inl (List.drop_eq_nil_of_le h)

theorem walk_page_length {fuel : Nat} {c : Option ι} {ps : List (List α)} (h : walk key fetch fuel c = some ps) :
    ∀ p ∈ ps, p.length ≤ n := by
  induction fuel generalizing c ps with
  | zero => cases h
  | succ fuel ih =>
    rcases walk_cases hn hfetch rfl with ⟨-, hstop⟩ | ⟨p, a, tail, -, hle, -, hnext⟩
    · rw [hstop] at h; cases h; simp
    · rw [hnext] at h
      obtain ⟨qs, hqs, rfl⟩ := Option.map_eq_some_iff.mp h
      intro q hq
      rcases List.mem_cons.mp hq with rfl | hq
      · rw [List.length_append]; exact hle
      · exact ih hqs q hq

theorem walk_below {fuel : Nat} {c : ι} {ps : List (List α)} (h : walk key fetch fuel (some c) = some ps) :
    ∀ a ∈ ps.flatten, key a < c := by
  induction fuel generalizing c ps with
  | zero => cases h
  | succ fuel ih =>
    rcases walk_cases hn hfetch rfl with ⟨-, hstop⟩ | ⟨p, a, tail, hrest, -, -, hnext⟩
    · rw [hstop] at h; cases h; simp
    · rw [hnext] at h
      obtain ⟨qs, hqs, rfl⟩ := Option.map_eq_some_iff.mp h
      have hp : ∀ b ∈ p ++ [a], key b < c := by
        intro b hb
        have hb' : b ∈ below key l (some c) := by
          rw [hrest, List.append_cons]
          exact List.mem_append_left _ hb
        simpa using (List.mem_filter.mp hb').2
      intro b hb
      rw [List.flatten_cons] at hb
      rcases List.mem_append.mp hb with hb | hb
      · exact hp b hb
      · exact lt_trans (ih hqs b hb) (hp a (by simp))

theorem walk_first {fuel : Nat} {c : Option ι} {ps : List (List α)} {x : α} {t : List α}
    (h : walk key fetch fuel c = some ps) (hc : below key l c = x :: t) : x ∈ ps.flatten := by
  cases fuel with
  | zero => cases h
  | succ fuel =>
    rcases walk_cases hn hfetch hc with ⟨hnil, -⟩ | ⟨p, a, tail, hrest, -, -, hnext⟩
    · cases hnil
    · rw [hnext] at h
      obtain ⟨qs, hqs, rfl⟩ := Option.map_eq_some_iff.mp h
      rw [List.flatten_cons]
      refine List.mem_append_left _ ?_
      cases p with
      | nil => simp only [List.nil_append, List.cons.injEq] at hrest; simp [hrest.1]
      | cons y p => simp only [List.cons_append, List.cons.injEq] at hrest; simp [hrest.1]

/-! ## Completeness -/

omit hn hfetch in
/-- A cursor at an aligned entry leaves what comes after it. -/
theorem below_of_aligned {pre post : List α} {a : α} (hl : l = pre ++ a :: post)
    (hpre : ∀ b ∈ pre, key a < key b) (hpost : ∀ b ∈ post, key b < key a) :
    below key l (some (key a)) = post := by
  rw [below, hl, List.filter_append, List.filter_cons_of_neg (by simp)]
  rw [List.filter_eq_nil_iff.mpr fun b hb => by simpa using le_of_lt (hpre b hb), List.nil_append]
  exact List.filter_eq_self.mpr fun b hb => by simpa using hpost b hb

/-- From a cursor that splits the list at the end of a page, an aligned list
is walked to its end. -/
theorem walk_of_aligned (hal : Aligned key n l) {done rest : List α} {c : Option ι} (hl : l = done ++ rest)
    (hdvd : n ∣ done.length ∨ rest = []) (hc : below key l c = rest) :
    ∃ fuel ps, walk key fetch fuel c = some ps ∧ ps.flatten = rest := by
  induction hk : rest.length using Nat.strongRecOn generalizing done rest c with
  | ind k ih =>
  rcases walk_cases hn hfetch hc with ⟨rfl, hstop⟩ | ⟨p, a, tail, rfl, hle, hfull, hnext⟩
  · exact ⟨1, [], hstop 0, rfl⟩
  have hdvd : n ∣ done.length := hdvd.resolve_right (by simp)
  have hsplit : l = (done ++ p) ++ a :: tail := by rw [hl, List.append_assoc]
  have hend : n ∣ (done ++ p).length + 1 ∨ tail = [] := by
    rcases hfull with h | h
    · exact .inr h
    · rw [List.length_append, Nat.add_assoc, h]
      exact .inl ((Nat.dvd_add_right hdvd).mpr (Nat.dvd_refl n))
  obtain ⟨hbefore, hafter⟩ := hal _ _ _ hsplit hend
  have hlen : (done ++ p ++ [a]).length = (done ++ p).length + 1 := by rw [List.length_append, List.length_singleton]
  obtain ⟨fuel, ps, hps, hflat⟩ := ih tail.length (by rw [← hk]; simp; omega)
    (hsplit.trans (by simp) : l = (done ++ p ++ [a]) ++ tail) (hlen ▸ hend) (below_of_aligned hsplit hbefore hafter) rfl
  refine ⟨fuel + 1, (p ++ [a]) :: ps, by rw [hnext, hps]; rfl, ?_⟩
  rw [List.flatten_cons, hflat]
  simp

/-- The last entry of a page is aligned when the walk from it returns what
comes after it, each entry once. -/
theorem aligned_of_rest (hnd : l.Nodup) (hinj : ∀ a ∈ l, ∀ b ∈ l, key a = key b → a = b) {fuel : Nat}
    {pre post : List α} {a : α} {ps : List (List α)} (hl : l = pre ++ a :: post)
    (hw : walk key fetch fuel (some (key a)) = some ps) (hp : ps.flatten.Perm post) :
    (∀ b ∈ pre, key a < key b) ∧ ∀ b ∈ post, key b < key a := by
  refine ⟨fun b hb => ?_, fun b hb => walk_below hn hfetch hw b (hp.mem_iff.mpr hb)⟩
  by_contra hlt
  have hmem : ∀ x, x ∈ pre → x ∈ l ∧ x ≠ a ∧ x ∉ post := by
    intro x hx
    rw [hl] at hnd
    obtain ⟨-, -, hdisj⟩ := List.nodup_append.mp hnd
    exact ⟨by simp [hl, hx], hdisj x hx a (by simp), fun h => hdisj x hx x (by simp [h]) rfl⟩
  obtain ⟨hbl, hba, -⟩ := hmem b hb
  have hb' : key b < key a :=
    lt_of_le_of_ne (not_lt.mp hlt) fun h => hba (hinj b hbl a (by simp [hl]) h)
  -- the entries of `pre` below the cursor come first, and the walk returns the first of all
  obtain ⟨x, t, hxt⟩ : ∃ x t, pre.filter (fun y => key y < key a) = x :: t :=
    List.exists_cons_of_ne_nil (List.ne_nil_of_mem (List.mem_filter.mpr ⟨hb, by simpa using hb'⟩))
  have hx : x ∈ pre := (List.mem_filter.mp (hxt ▸ List.mem_cons_self)).1
  have hbelow : below key l (some (key a)) = x :: (t ++ (a :: post).filter fun y => key y < key a) := by
    rw [below, hl, List.filter_append, hxt, List.cons_append]
  exact (hmem x hx).2.2 (hp.mem_iff.mp (walk_first hn hfetch hw hbelow))

/-- A walk that returns what remains, each entry once, ends its pages at
aligned entries. -/
theorem aligned_of_walk (hnd : l.Nodup) (hinj : ∀ a ∈ l, ∀ b ∈ l, key a = key b → a = b) {fuel : Nat}
    {done rest : List α} {c : Option ι} {ps : List (List α)} (hl : l = done ++ rest)
    (hdvd : n ∣ done.length ∨ rest = []) (hc : below key l c = rest) (hw : walk key fetch fuel c = some ps)
    (hp : ps.flatten.Perm rest) :
    ∀ pre a post, l = pre ++ a :: post → done.length ≤ pre.length → n ∣ pre.length + 1 ∨ post = [] →
      (∀ b ∈ pre, key a < key b) ∧ ∀ b ∈ post, key b < key a := by
  induction fuel generalizing done rest c ps with
  | zero => cases hw
  | succ fuel ih =>
  intro pre a' post hl' hge hend'
  have hlen := congrArg List.length (hl.symm.trans hl')
  rcases walk_cases hn hfetch hc with ⟨rfl, -⟩ | ⟨p, a, tail, rfl, hle, hfull, hnext⟩
  · simp only [List.length_append, List.length_nil, List.length_cons] at hlen
    omega
  rw [hnext] at hw
  obtain ⟨qs, hqs, rfl⟩ := Option.map_eq_some_iff.mp hw
  have hdvd : n ∣ done.length := hdvd.resolve_right (by simp)
  have hsplit : l = (done ++ p) ++ a :: tail := by rw [hl, List.append_assoc]
  have hq : qs.flatten.Perm tail := by
    rw [List.flatten_cons, List.append_cons p a tail] at hp
    exact (List.perm_append_left_iff _).mp hp
  have ha := aligned_of_rest hn hfetch hnd hinj hsplit hqs hq
  simp only [List.length_append, List.length_cons] at hlen
  rcases Nat.lt_trichotomy pre.length (done ++ p).length with hlt | heq | hgt
  · -- no page ends strictly inside this one
    rw [List.length_append] at hlt
    rcases hend' with ⟨k, hk⟩ | rfl
    · obtain ⟨j, hj⟩ := hdvd
      have h₁ : n * j < n * k := by omega
      have h₂ : n * k < n * (j + 1) := by rw [Nat.mul_succ]; omega
      have := Nat.lt_of_mul_lt_mul_left h₁
      have := Nat.lt_of_mul_lt_mul_left h₂
      omega
    · simp only [List.length_nil] at hlen
      omega
  · obtain ⟨rfl, h⟩ := List.append_inj (hl'.symm.trans hsplit) heq
    obtain ⟨rfl, rfl⟩ := List.cons.inj h
    exact ha
  · have hlen' : (done ++ p ++ [a]).length = (done ++ p).length + 1 := by rw [List.length_append, List.length_singleton]
    refine ih (hsplit.trans (by simp) : l = (done ++ p ++ [a]) ++ tail) ?_
      (below_of_aligned hsplit ha.1 ha.2) hqs hq pre a' post hl' (by omega) hend'
    rcases hfull with h | h
    · exact .inr h
    · rw [hlen', List.length_append, Nat.add_assoc, h]
      exact .inl ((Nat.dvd_add_right hdvd).mpr (Nat.dvd_refl n))

/-- The walk from the start returns every entry exactly once, in any order,
exactly when the list is aligned with its pages. -/
theorem walk_complete_iff (hnd : l.Nodup) (hinj : ∀ a ∈ l, ∀ b ∈ l, key a = key b → a = b) :
    (∃ fuel ps, walk key fetch fuel none = some ps ∧ ps.flatten.Perm l) ↔ Aligned key n l := by
  constructor
  · intro ⟨fuel, ps, hw, hp⟩ pre a post hl hend
    exact aligned_of_walk hn hfetch hnd hinj (List.nil_append l).symm (.inl (Nat.dvd_zero n)) rfl hw hp pre a post hl
      (Nat.zero_le _) hend
  · intro hal
    have hall : below key l none = l := rfl
    obtain ⟨fuel, ps, hw, hflat⟩ :=
      walk_of_aligned hn hfetch hal (List.nil_append l).symm (.inl (Nat.dvd_zero n)) hall
    exact ⟨fuel, ps, hw, hflat ▸ List.Perm.refl _⟩

end Pages

end Paging
