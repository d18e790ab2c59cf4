/-
Byte strings in bytewise lexicographic order, and Rust's sequence types over
them: `[u8; n]` (`Arr`), `Vec<T>` (`Vec`) and `String` (`Str`), each with its
invariant as a field.

The order facts are the ones a key-value store's scans rest on. The strings
that start with `p` are an interval from `p` on: `prefix_le` puts them at or
above `p`, and `lt_of_not_prefix` puts them below every other string from
`p` on. Among the strings that are not shorter than `p` the interval ends at
the next string of `p`'s length (`Next.lt_of_isPrefix`, `Next.isPrefix_of_lt`).
Strings of equal length compare block by block (`append_lt_append_iff`), and
big-endian numbers compare as numbers (`be_lt_be_iff`).
-/
import Mathlib.Algebra.GroupWithZero.Nat
import Mathlib.Data.List.Induction
import Mathlib.Data.List.Lex
import Mathlib.Data.List.Sort
import Mathlib.Order.Lattice

/-- A byte string. -/
abbrev Bytes := List UInt8

instance UInt8.linearOrder : LinearOrder UInt8 where
  le_refl := UInt8.le_refl
  le_trans _ _ _ := UInt8.le_trans
  le_antisymm _ _ := UInt8.le_antisymm
  le_total := UInt8.le_total
  lt_iff_le_not_ge a b := by simp [UInt8.le_iff_toNat_le, UInt8.lt_iff_toNat_lt]; omega
  toDecidableLE := inferInstance
  toDecidableLT := inferInstance
  toDecidableEq := inferInstance

namespace Bytes

/-- An ASCII literal such as `b"dm:"`. -/
def ascii (cs : List Char) : Bytes := cs.map fun c => c.toNat.toUInt8

/-! ## Lexicographic order -/

section Order
variable {α : Type} [LinearOrder α]

theorem prefix_le {p k : List α} (h : p <+: k) : p ≤ k := by
  induction p generalizing k with
  | nil => cases k with
    | nil => exact le_rfl
    | cons b k => exact le_of_lt (List.nil_lt_cons b k)
  | cons a p ih =>
    obtain ⟨t, rfl⟩ := h
    exact List.cons_le_cons a (ih ⟨t, rfl⟩)

/-- From `p` on, a string that starts with `p` comes before one that does not. -/
theorem lt_of_not_prefix {p k k' : List α} (hk : p <+: k) (hle : p ≤ k') (hn : ¬ p <+: k') : k < k' := by
  induction p generalizing k k' with
  | nil => exact absurd List.nil_prefix hn
  | cons a p ih =>
    obtain ⟨t, rfl⟩ := hk
    cases k' with
    | nil => exact absurd hle (not_le_of_gt (List.nil_lt_cons a p))
    | cons b k' =>
      rcases hle.lt_or_eq with hlt | heq
      · rw [List.cons_append, List.cons_lt_cons_iff]
        rw [List.cons_lt_cons_iff] at hlt
        rcases hlt with hab | ⟨rfl, hpk⟩
        · exact .inl hab
        · refine .inr ⟨rfl, ih ⟨t, rfl⟩ (le_of_lt hpk) fun h => hn ?_⟩
          exact List.cons_prefix_cons.mpr ⟨rfl, h⟩
      · exact absurd (heq ▸ List.prefix_rfl) hn

/-- Strings with equally long heads compare by the heads, then by the tails. -/
theorem append_lt_append_iff {a b c d : List α} (h : a.length = b.length) :
    a ++ c < b ++ d ↔ a < b ∨ a = b ∧ c < d := by
  induction a generalizing b with
  | nil =>
    cases b with
    | nil => simp
    | cons y b => simp at h
  | cons x a ih =>
    cases b with
    | nil => simp at h
    | cons y b =>
      simp only [List.length_cons, Nat.add_right_cancel_iff] at h
      simp only [List.cons_append, List.cons_lt_cons_iff, ih h, List.cons.injEq]
      tauto

theorem append_left_lt_iff {a c d : List α} : a ++ c < a ++ d ↔ c < d := by
  simp [append_lt_append_iff rfl]

theorem cons_le_cons_iff {a b : α} {l l' : List α} : a :: l ≤ b :: l' ↔ a < b ∨ a = b ∧ l ≤ l' := by
  rw [← not_lt, List.cons_lt_cons_iff, not_or, not_and, not_lt, not_lt]
  constructor
  · intro ⟨hab, h⟩
    rcases lt_or_eq_of_le hab with hlt | heq
    · exact .inl hlt
    · exact .inr ⟨heq, h heq.symm⟩
  · intro h
    rcases h with hlt | ⟨rfl, h⟩
    · exact ⟨le_of_lt hlt, fun heq => absurd hlt (heq ▸ lt_irrefl _)⟩
    · exact ⟨le_rfl, fun _ => h⟩

/-- `s` comes right after `p` among the strings of its length. -/
structure Next (p s : List α) : Prop where
  length : s.length = p.length
  lt_iff : ∀ q : List α, q.length = p.length → (q < s ↔ q ≤ p)

/-- `s` is above every string that starts with `p`. -/
theorem Next.lt_of_isPrefix {p s k : List α} (h : Next p s) (hk : p <+: k) : k < s := by
  obtain ⟨t, rfl⟩ := hk
  have hps : p < s := (h.lt_iff p rfl).mpr le_rfl
  have hlt := (append_lt_append_iff (c := t) (d := []) h.length.symm).mpr (.inl hps)
  rwa [List.append_nil] at hlt

/-- Of the strings no shorter than `p`, only those that start with `p` are from
`p` on and below it. A shorter one can be: between `[1, 255]` and `[2, 0]` is
`[2]`. -/
theorem Next.isPrefix_of_lt {p s k : List α} (h : Next p s) (hlen : p.length ≤ k.length) (hge : p ≤ k) (hlt : k < s) :
    p <+: k := by
  obtain ⟨q, t, hq, rfl⟩ : ∃ q t, q.length = p.length ∧ q ++ t = k :=
    ⟨k.take p.length, k.drop p.length, by rw [List.length_take, min_eq_left hlen], List.take_append_drop _ _⟩
  have hle : q ≤ p := by
    rw [← List.append_nil s, append_lt_append_iff (hq.trans h.length.symm)] at hlt
    rcases hlt with hlt | ⟨-, hlt⟩
    · exact (h.lt_iff q hq).mp hlt
    · exact absurd hlt (List.not_lt_nil _)
  have hge' : p ≤ q := by
    by_contra hn
    have hlt' := (append_lt_append_iff (c := t) (d := []) hq).mpr (.inl (not_le.mp hn))
    rw [List.append_nil] at hlt'
    exact absurd hge (not_le.mpr hlt')
  rw [le_antisymm hge' hle]
  exact List.prefix_append q t

end Order

/-! ## Big-endian numbers -/

/-- The `k` big-endian bytes of `n` (`to_be_bytes`). -/
def be : Nat → Nat → Bytes
  | 0, _ => []
  | k + 1, n => be k (n / 256) ++ [(n % 256).toUInt8]

theorem be_length (k n : Nat) : (be k n).length = k := by
  induction k generalizing n with
  | zero => rfl
  | succ k ih => simp [be, ih]

theorem toNat_toUInt8 {n : Nat} (h : n < 256) : n.toUInt8.toNat = n := by
  simp [UInt8.toNat_ofNat', Nat.mod_eq_of_lt h]

theorem toUInt8_toNat_mod (n : Nat) : ((n % 256).toUInt8).toNat = n % 256 := toNat_toUInt8 (by omega)

theorem be_lt_be_iff {k n m : Nat} (hn : n < 256 ^ k) (hm : m < 256 ^ k) : be k n < be k m ↔ n < m := by
  induction k generalizing n m with
  | zero => simp only [Nat.pow_zero, Nat.lt_one_iff] at hn hm; subst hn hm; simp [be]
  | succ k ih =>
    have hn' : n / 256 < 256 ^ k := by rw [Nat.div_lt_iff_lt_mul (by decide)]; rwa [Nat.pow_succ] at hn
    have hm' : m / 256 < 256 ^ k := by rw [Nat.div_lt_iff_lt_mul (by decide)]; rwa [Nat.pow_succ] at hm
    have heq : be k (n / 256) = be k (m / 256) ↔ n / 256 = m / 256 := by
      refine ⟨fun h => ?_, fun h => by rw [h]⟩
      have h₁ := (ih hn' hm').not.mp (by rw [h]; exact lt_irrefl _)
      have h₂ := (ih hm' hn').not.mp (by rw [h]; exact lt_irrefl _)
      omega
    simp only [be]
    rw [append_lt_append_iff (by rw [be_length, be_length]), ih hn' hm', heq, List.cons_lt_cons_iff,
      UInt8.lt_iff_toNat_lt, toUInt8_toNat_mod, toUInt8_toNat_mod]
    simp only [List.not_lt_nil, and_false, or_false]
    omega

/-- The number of some big-endian bytes. -/
def ofBe (l : Bytes) : Nat := l.foldl (fun n b => n * 256 + b.toNat) 0

theorem ofBe_append (l : Bytes) (b : UInt8) : ofBe (l ++ [b]) = ofBe l * 256 + b.toNat := by
  simp [ofBe, List.foldl_append]

theorem ofBe_be {k n : Nat} (h : n < 256 ^ k) : ofBe (be k n) = n := by
  induction k generalizing n with
  | zero => simp only [Nat.pow_zero, Nat.lt_one_iff] at h; simp [be, ofBe, h]
  | succ k ih =>
    have hq : n / 256 < 256 ^ k := by rw [Nat.div_lt_iff_lt_mul (by decide)]; rwa [Nat.pow_succ] at h
    rw [be, ofBe_append, toUInt8_toNat_mod, ih hq]
    omega

theorem ofBe_lt (l : Bytes) : ofBe l < 256 ^ l.length := by
  induction l using List.reverseRecOn with
  | nil => decide
  | append_singleton l b ih =>
    have hb : b.toNat < 256 := b.toNat_lt
    rw [ofBe_append, List.length_append, List.length_singleton, Nat.pow_succ]
    omega

theorem be_ofBe (l : Bytes) : be l.length (ofBe l) = l := by
  induction l using List.reverseRecOn with
  | nil => rfl
  | append_singleton l b ih =>
    have hb : b.toNat < 256 := b.toNat_lt
    have hdiv : (ofBe l * 256 + b.toNat) / 256 = ofBe l := by omega
    have hmod : (ofBe l * 256 + b.toNat) % 256 = b.toNat := by omega
    rw [ofBe_append, List.length_append, List.length_singleton, be, hdiv, hmod, ih]
    simp

theorem be_inj {k n m : Nat} (hn : n < 256 ^ k) (hm : m < 256 ^ k) (h : be k n = be k m) : n = m := by
  rw [← ofBe_be hn, h, ofBe_be hm]

end Bytes

/-! ## Fixed arrays and vectors -/

/-- For the literals of `Fin 3` and `Fin 4`: the indices of small enums and tables. -/
instance Fin.neZero_three : NeZero 3 := ⟨by decide⟩

instance Fin.neZero_four : NeZero 4 := ⟨by decide⟩

/-- `[u8; n]`. -/
abbrev Arr (n : Nat) := { l : Bytes // l.length = n }

/-- `[b; n]`. -/
def Arr.fill (n : Nat) (b : UInt8) : Arr n := ⟨List.replicate n b, List.length_replicate⟩

/-- `Vec<T>`: a list whose length is a `usize`. -/
abbrev Vec (α : Type) := { l : List α // l.length < 2 ^ 64 }

namespace Vec
variable {α β : Type}

/-- `Vec::new()`. -/
def empty : Vec α := ⟨[], Nat.two_pow_pos 64⟩

/-- `vec![a]`. -/
def singleton (a : α) : Vec α := ⟨[a], Nat.one_lt_two_pow (by decide)⟩

def map (f : α → β) (v : Vec α) : Vec β := ⟨v.val.map f, by rw [List.length_map]; exact v.property⟩

/-- `retain`. -/
def retain (p : α → Bool) (v : Vec α) : Vec α :=
  ⟨v.val.filter p, Nat.lt_of_le_of_lt (List.length_filter_le p _) v.property⟩

/-- `sort_by` with the order `r`: a stable sort. -/
def sortBy (r : α → α → Prop) [DecidableRel r] (v : Vec α) : Vec α :=
  ⟨v.val.insertionSort r, by rw [List.length_insertionSort]; exact v.property⟩

end Vec

/-! ## UTF-8 -/

namespace Utf8

/-- A continuation byte. -/
def isCont (b : UInt8) : Bool := 0x80 ≤ b && b ≤ 0xBF

/-- The well-formed sequences of the Unicode standard, as `core::str::from_utf8`
accepts them: no overlong forms, no surrogates, nothing above U+10FFFF. -/
def valid : Bytes → Bool
  | [] => true
  | a :: l =>
    if a < 0x80 then valid l
    else match l with
      | [] => false
      | b :: l =>
        if 0xC2 ≤ a && a ≤ 0xDF then isCont b && valid l
        else match l with
          | [] => false
          | c :: l =>
            if a == 0xE0 then 0xA0 ≤ b && b ≤ 0xBF && isCont c && valid l
            else if a == 0xED then 0x80 ≤ b && b ≤ 0x9F && isCont c && valid l
            else if 0xE1 ≤ a && a ≤ 0xEF then isCont b && isCont c && valid l
            else match l with
              | [] => false
              | d :: l =>
                if a == 0xF0 then 0x90 ≤ b && b ≤ 0xBF && isCont c && isCont d && valid l
                else if 0xF1 ≤ a && a ≤ 0xF3 then isCont b && isCont c && isCont d && valid l
                else if a == 0xF4 then 0x80 ≤ b && b ≤ 0x8F && isCont c && isCont d && valid l
                else false

/-- No byte of UTF-8 is `0xFF`. -/
theorem valid_lt {l : Bytes} (h : valid l = true) : ∀ b ∈ l, b < 0xFF := by
  fun_induction valid l <;> simp_all [isCont] <;> grind

/-! Strings of high bytes, such as the start of a long varint. -/

theorem isCont_iff {b : UInt8} : isCont b = true ↔ 128 ≤ b.toNat ∧ b.toNat < 192 := by
  simp only [isCont, Bool.and_eq_true, decide_eq_true_eq, UInt8.le_iff_toNat_le]
  exact and_congr_right fun _ => Nat.lt_succ_iff.symm

theorem not_valid_one {a : UInt8} (ha : 0x80 ≤ a) : valid [a] = false := by
  simp [valid, not_lt.mpr ha]

theorem valid_two {a b : UInt8} (ha : 0x80 ≤ a) :
    valid [a, b] = true ↔ (194 ≤ a.toNat ∧ a.toNat < 224) ∧ 128 ≤ b.toNat ∧ b.toNat < 192 := by
  have hlead : (0xC2 ≤ a && a ≤ 0xDF) = true ↔ 194 ≤ a.toNat ∧ a.toNat < 224 := by
    simp only [Bool.and_eq_true, decide_eq_true_eq, UInt8.le_iff_toNat_le]
    exact and_congr_right fun _ => Nat.lt_succ_iff.symm
  simp only [valid, if_neg (not_lt.mpr ha)]
  split
  · next h => simp [hlead.mp h, isCont_iff]
  · next h => simp [mt hlead.mpr h]

theorem valid_three {a b c : UInt8} (ha : 0x80 ≤ a) (hc : 0x80 ≤ c) :
    valid [a, b, c] = true ↔ (224 ≤ a.toNat ∧ a.toNat < 240) ∧ (128 ≤ b.toNat ∧ b.toNat < 192) ∧
      (128 ≤ c.toNat ∧ c.toNat < 192) ∧ (a.toNat = 224 → 160 ≤ b.toNat) ∧ (a.toNat = 237 → b.toNat < 160) := by
  simp only [valid, if_neg (not_lt.mpr ha), if_neg (not_lt.mpr hc), beq_iff_eq, ← UInt8.toNat_inj, Bool.and_eq_true,
    decide_eq_true_eq, UInt8.le_iff_toNat_le, Bool.and_false, UInt8.toNat_ofNat]
  split
  · simp
    omega
  split
  · simp [isCont_iff]
    omega
  split
  · simp [isCont_iff]
    omega
  split
  · simp [isCont_iff]
    omega
  · simp
    omega

end Utf8

/-- `String`: UTF-8 bytes, at most `isize::MAX` of them. -/
structure Str where
  bytes : Bytes
  valid : Utf8.valid bytes = true
  len_lt : bytes.length < 2 ^ 63
  deriving DecidableEq

/-- `String::new()`. -/
def Str.empty : Str := ⟨[], rfl, by decide⟩

@[ext] theorem Str.ext' {s t : Str} (h : s.bytes = t.bytes) : s = t := by
  cases s; cases t; simp_all
