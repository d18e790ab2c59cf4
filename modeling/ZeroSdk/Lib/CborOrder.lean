/-
What deterministic CBOR is (RFC 8949, section 4.2.1), said of bytes and not of
a writer: every head is as short as a head can be, lengths are definite, no
key stands twice, and the entries of a map come in the bytewise order of their
encoded keys.

The heads of a deterministic encoding are those `head` writes
(`shortestHead_iff`), so a map has exactly one (`deterministic_sortKeys`,
`Deterministic.unique`), and `encMap` gives it for a list of entries whose
encoded keys ascend and for no other (`deterministic_encMap_iff`).
-/
import ZeroSdk.Lib.Cbor

namespace Cbor

/-! ## Heads -/

/-- A head with a definite argument, in any of its widths. -/
def IsHead (major n : Nat) (b : Bytes) : Prop := readHead b = some (major, n, [])

/-- A head as short as any for the same argument. -/
def ShortestHead (major n : Nat) (b : Bytes) : Prop := IsHead major n b ∧ ∀ b', IsHead major n b' → b.length ≤ b'.length

/-- The two forms of a head: the argument in the first byte, or `2 ^ w` bytes
behind it. -/
theorem IsHead.cases {major n : Nat} {b : Bytes} (h : IsHead major n b) :
    (n < 24 ∧ b = [(major * 32 + n).toUInt8]) ∨
    ∃ w < 4, n < 256 ^ 2 ^ w ∧ b = (major * 32 + 24 + w).toUInt8 :: Bytes.be (2 ^ w) n := by
  have hbyte : ∀ x : UInt8, x = (x.toNat / 32 * 32 + x.toNat % 32).toUInt8 := by
    intro x
    rw [Nat.div_add_mod']
    simp
  unfold IsHead at h
  cases b with
  | nil => cases h
  | cons x l =>
    rw [readHead] at h
    split at h
    · next hinfo =>
      cases h
      refine .inl ⟨hinfo, ?_⟩
      rw [← hbyte]
    split at h
    · next hinfo =>
      obtain ⟨hlt, hlen⟩ := hinfo
      simp only [Option.some.injEq, Prod.mk.injEq, List.drop_eq_nil_iff] at h
      obtain ⟨rfl, rfl, hdrop⟩ := h
      have hl : l.length = 2 ^ (x.toNat % 32 - 24) := le_antisymm hdrop hlen
      have hbound := Bytes.ofBe_lt l
      have hbe := Bytes.be_ofBe l
      rw [hl] at hbound hbe
      refine .inr ⟨x.toNat % 32 - 24, by omega, ?_, ?_⟩
      · rw [List.take_of_length_le hdrop]
        exact hbound
      · rw [List.take_of_length_le hdrop, hbe, Nat.add_assoc, Nat.add_sub_cancel' (by omega), ← hbyte]
    · cases h

theorem width_le {n w : Nat} (hw : w < 4) (h : n < 256 ^ 2 ^ w) : width n ≤ w := by
  have hpow : 256 ^ 2 ^ w = 2 ^ (8 * 2 ^ w) := by rw [Nat.pow_mul]
  rw [hpow] at h
  unfold width
  match w, hw with
  | 0, _ =>
    have h : n < 2 ^ 8 := h
    rw [if_pos h]
  | 1, _ =>
    have h : n < 2 ^ 16 := h
    split <;> omega
  | 2, _ =>
    have h : n < 2 ^ 32 := h
    split_ifs <;> omega
  | 3, _ => split_ifs <;> omega

theorem head_length (major n : Nat) : (head major n).length = if n < 24 then 1 else 1 + 2 ^ width n := by
  unfold head
  split
  · rfl
  · rw [List.length_cons, Bytes.be_length, Nat.add_comm]

/-- `head` writes the one shortest head. -/
theorem shortestHead_iff {major n : Nat} (hm : major < 8) (hn : n < 2 ^ 64) {b : Bytes} :
    ShortestHead major n b ↔ b = head major n := by
  have hhead : IsHead major n (head major n) := by
    have h := readHead_head hm hn []
    rwa [List.append_nil] at h
  have hshort : ∀ b', IsHead major n b' → (head major n).length ≤ b'.length ∧
      (b'.length ≤ (head major n).length → b' = head major n) := by
    intro b' hb'
    rw [head_length]
    rcases hb'.cases with ⟨hsmall, rfl⟩ | ⟨w, hw, hfit, rfl⟩
    · rw [if_pos hsmall]
      exact ⟨le_rfl, fun _ => by rw [head, if_pos hsmall]⟩
    · have hwidth := width_le hw hfit
      have hpow : 2 ^ width n ≤ 2 ^ w := Nat.pow_le_pow_right (by decide) hwidth
      have hpos : 1 ≤ 2 ^ w := Nat.one_le_two_pow
      rw [List.length_cons, Bytes.be_length]
      split
      · exact ⟨by omega, fun h => by omega⟩
      · next hlarge =>
        refine ⟨by omega, fun h => ?_⟩
        have hpow' : 2 ^ w = 2 ^ width n := by omega
        rw [head, if_neg hlarge, Nat.pow_right_injective le_rfl hpow']
  constructor
  · intro h
    exact (hshort b h.1).2 (h.2 _ hhead)
  · rintro rfl
    exact ⟨hhead, fun b' hb' => (hshort b' hb').1⟩

/-! ## Items -/

/-- An item without parts, its head shortest. -/
def Scalar.Short (b : Bytes) : Scalar → Prop
  | .integer i =>
    if 0 ≤ i.val then ShortestHead 0 i.val.toNat b else ShortestHead 1 (-1 - i.val).toNat b
  | .bytes d => ∃ h, ShortestHead 2 d.val.length h ∧ b = h ++ d.val
  | .text s => ∃ h, ShortestHead 3 s.bytes.length h ∧ b = h ++ s.bytes
  | .null => ShortestHead 7 22 b

theorem Scalar.short_iff (s : Scalar) {b : Bytes} : s.Short b ↔ b = s.enc := by
  cases s with
  | integer i =>
    obtain ⟨i, hlo, hhi⟩ := i
    simp only [Short, enc]
    split
    · exact shortestHead_iff (by decide) (by omega)
    · exact shortestHead_iff (by decide) (by omega)
  | bytes d =>
    have hhead := @shortestHead_iff 2 d.val.length (by decide) d.property
    simp only [Short, enc, hhead, exists_eq_left]
  | text s =>
    have hlen := s.len_lt
    have hhead := @shortestHead_iff 3 s.bytes.length (by decide) (by omega)
    simp only [Short, enc, hhead, exists_eq_left]
  | null => exact shortestHead_iff (by decide) (by decide)

/-! ## Maps -/

/-- The bytes of a map: its entries in some order behind a definite length,
all heads shortest, and the encoded keys in the order they stand in as
`order` wants them. -/
def EncodesMap (order : List Bytes → Prop) (m : List (Scalar × Scalar)) (b : Bytes) : Prop :=
  ∃ (m' : List (Scalar × Scalar)) (h : Bytes) (items : List (Bytes × Bytes)), m'.Perm m ∧ ShortestHead 5 m.length h ∧
    List.Forall₂ (fun e i => e.1.Short i.1 ∧ e.2.Short i.2) m' items ∧
    b = h ++ (items.flatMap fun i => i.1 ++ i.2) ∧ order (items.map Prod.fst)

/-- Definite lengths, shortest heads and no key twice. -/
def ShortForm : List (Scalar × Scalar) → Bytes → Prop := EncodesMap List.Nodup

/-- The deterministic encoding: the keys ascend bytewise as well. -/
def Deterministic : List (Scalar × Scalar) → Bytes → Prop := EncodesMap (List.Pairwise (· < ·))

theorem forall₂_short_iff {m : List (Scalar × Scalar)} {items : List (Bytes × Bytes)} :
    List.Forall₂ (fun e i => e.1.Short i.1 ∧ e.2.Short i.2) m items ↔ items = m.map fun e => (e.1.enc, e.2.enc) := by
  simp only [Scalar.short_iff]
  induction m generalizing items with
  | nil => simp
  | cons e m ih =>
    rw [List.forall₂_cons_left_iff]
    simp only [ih, List.map_cons]
    constructor
    · rintro ⟨⟨k, v⟩, items, ⟨rfl, rfl⟩, rfl, rfl⟩
      rfl
    · rintro rfl
      exact ⟨_, _, ⟨rfl, rfl⟩, rfl, rfl⟩

/-- The encodings of a map are the lists `encMap` writes for its entries. -/
theorem encodesMap_iff {order : List Bytes → Prop} {m : List (Scalar × Scalar)} (hm : m.length < 2 ^ 64) {b : Bytes} :
    EncodesMap order m b ↔ ∃ m' : List (Scalar × Scalar), m'.Perm m ∧ order (m'.map (·.1.enc)) ∧ b = encMap m' := by
  simp only [EncodesMap, shortestHead_iff (show 5 < 8 by decide) hm, forall₂_short_iff]
  constructor
  · rintro ⟨m', _, _, hperm, rfl, rfl, rfl, horder⟩
    rw [List.map_map] at horder
    refine ⟨m', hperm, horder, ?_⟩
    rw [encMap, hperm.length_eq, List.flatMap_map]
  · rintro ⟨m', hperm, horder, rfl⟩
    refine ⟨m', _, _, hperm, rfl, rfl, ?_, ?_⟩
    · rw [encMap, hperm.length_eq, List.flatMap_map]
    · rw [List.map_map]
      exact horder

theorem encMap_inj {m m' : List (Scalar × Scalar)} (hm : m.length < 2 ^ 64) (hm' : m'.length < 2 ^ 64)
    (h : encMap m = encMap m') : m = m' := by
  have hread := readHead_head (show 5 < 8 by decide) hm (m.flatMap fun e => e.1.enc ++ e.2.enc)
  have hread' := readHead_head (show 5 < 8 by decide) hm' (m'.flatMap fun e => e.1.enc ++ e.2.enc)
  unfold encMap at h
  rw [h, hread'] at hread
  simp only [Option.some.injEq, Prod.mk.injEq, true_and] at hread
  obtain ⟨hlen, hrest⟩ := hread
  have hpairs := readPairs_flatMap m []
  have hpairs' := readPairs_flatMap m' []
  rw [← hrest, ← hlen, hpairs'] at hpairs
  exact (Prod.mk.inj (Option.some.inj hpairs)).1.symm

/-- What is written in the order given is deterministic exactly if that is the
order of the encoded keys. -/
theorem deterministic_encMap_iff {m : List (Scalar × Scalar)} (hm : m.length < 2 ^ 64) :
    Deterministic m (encMap m) ↔ (m.map (·.1.enc)).Pairwise (· < ·) := by
  rw [Deterministic, encodesMap_iff hm]
  constructor
  · rintro ⟨m', hperm, hsorted, henc⟩
    rw [encMap_inj hm (by rw [hperm.length_eq]; exact hm) henc]
    exact hsorted
  · intro hsorted
    exact ⟨m, .refl m, hsorted, rfl⟩

theorem shortForm_encMap {m : List (Scalar × Scalar)} (hm : m.length < 2 ^ 64) (h : (m.map (·.1.enc)).Nodup) :
    ShortForm m (encMap m) := (encodesMap_iff hm).mpr ⟨m, .refl m, h, rfl⟩

theorem Deterministic.unique {m : List (Scalar × Scalar)} (hm : m.length < 2 ^ 64) {b b' : Bytes}
    (h : Deterministic m b) (h' : Deterministic m b') : b = b' := by
  obtain ⟨l, hl, hsorted, rfl⟩ := (encodesMap_iff hm).mp h
  obtain ⟨l', hl', hsorted', rfl⟩ := (encodesMap_iff hm).mp h'
  rw [List.pairwise_map] at hsorted hsorted'
  rw [(hl.trans hl'.symm).eq_of_pairwise (fun a b _ _ hab hba => absurd (lt_trans hab hba) (lt_irrefl _)) hsorted
    hsorted']

/-- The entries in the order of their encoded keys. -/
def sortKeys (m : List (Scalar × Scalar)) : List (Scalar × Scalar) :=
  m.insertionSort fun a b => a.1.enc ≤ b.1.enc

theorem deterministic_sortKeys {m : List (Scalar × Scalar)} (hm : m.length < 2 ^ 64) (h : (m.map (·.1.enc)).Nodup) :
    Deterministic m (encMap (sortKeys m)) := by
  have hperm : (sortKeys m).Perm m := List.perm_insertionSort _ m
  refine (encodesMap_iff hm).mpr ⟨sortKeys m, hperm, ?_, rfl⟩
  have htotal : Std.Total fun a b : Scalar × Scalar => a.1.enc ≤ b.1.enc := ⟨fun a b => le_total a.1.enc b.1.enc⟩
  have htrans : IsTrans (Scalar × Scalar) fun a b => a.1.enc ≤ b.1.enc := ⟨fun _ _ _ => le_trans⟩
  have hsorted : (sortKeys m).Pairwise fun a b => a.1.enc ≤ b.1.enc := List.pairwise_insertionSort _ m
  have hne : ((sortKeys m).map (·.1.enc)).Pairwise (· ≠ ·) := (hperm.map _).nodup_iff.mpr h
  rw [List.pairwise_map] at hne ⊢
  exact (hsorted.and hne).imp fun {a b} hab => lt_of_le_of_ne hab.1 hab.2

end Cbor
