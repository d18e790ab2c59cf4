/-
`increment_bytes`, the upper end of a scan over a prefix: the bytes as a
big-endian number, plus one. Trailing `0xFF` bytes become zeros and are kept,
so the result is not the least string above all that start with the prefix but
the next one of the prefix's own length (`incrementBytes_next`).

That takes a byte the carry stops at (`incrementLoop_stops`). Bytes that are
all `0xFF` are the last of their length and have no next.
-/
import ZeroSdk.Dm.Service

namespace ZeroSdk.Dm

theorem lt_succ_iff {a b : UInt8} (h : b < 0xFF) : a < b + 1 ↔ a ≤ b := by
  rw [UInt8.lt_iff_toNat_lt] at h
  have hb : b.toNat < 255 := h
  rw [UInt8.lt_iff_toNat_lt, UInt8.le_iff_toNat_le, UInt8.toNat_add, Nat.mod_eq_of_lt (by simp; omega)]
  exact Nat.lt_succ_iff

/-- One byte of the loop: without a carry it stays, with one it goes up or
wraps. -/
theorem incrementLoop_cons (b : UInt8) (l : Bytes) :
    ((incrementLoop l).2 = false ∧ incrementLoop (b :: l) = (b :: (incrementLoop l).1, false)) ∨
    ((incrementLoop l).2 = true ∧ b < 0xFF ∧ incrementLoop (b :: l) = ((b + 1) :: (incrementLoop l).1, false)) ∨
    ((incrementLoop l).2 = true ∧ ¬ b < 0xFF ∧ incrementLoop (b :: l) = (0 :: (incrementLoop l).1, true)) := by
  rw [incrementLoop]
  rcases incrementLoop l with ⟨l', _ | _⟩
  · exact .inl ⟨rfl, rfl⟩
  · by_cases hb : b < 0xFF
    · exact .inr (.inl ⟨rfl, hb, if_pos hb⟩)
    · exact .inr (.inr ⟨rfl, hb, if_neg hb⟩)

theorem incrementLoop_length (p : Bytes) : (incrementLoop p).1.length = p.length := by
  induction p with
  | nil => rfl
  | cons b l ih =>
    rcases incrementLoop_cons b l with ⟨-, h⟩ | ⟨-, -, h⟩ | ⟨-, -, h⟩
    · rw [h, List.length_cons, List.length_cons, ih]
    · rw [h, List.length_cons, List.length_cons, ih]
    · rw [h, List.length_cons, List.length_cons, ih]

/-- With a carry left, the bytes were the last of their length and have become
the first. -/
theorem incrementLoop_carry {p : Bytes} (hp : (incrementLoop p).2 = true) {k : Bytes} (hk : k.length = p.length) :
    k ≤ p ∧ ¬ k < (incrementLoop p).1 := by
  induction p generalizing k with
  | nil =>
    rw [List.length_eq_zero_iff.mp hk]
    exact ⟨le_rfl, List.not_lt_nil _⟩
  | cons b l ih =>
    rcases incrementLoop_cons b l with ⟨-, h⟩ | ⟨-, -, h⟩ | ⟨hl, hb, h⟩
    · rw [h] at hp
      cases hp
    · rw [h] at hp
      cases hp
    · cases k with
      | nil => cases hk
      | cons x k =>
        obtain ⟨hle, hnlt⟩ := ih hl (show k.length = l.length by simpa using hk)
        have hx : x ≤ b := by
          rw [UInt8.lt_iff_toNat_lt] at hb
          rw [UInt8.le_iff_toNat_le]
          have := x.toNat_lt
          have : ¬ b.toNat < 255 := hb
          omega
        rw [h, Bytes.cons_le_cons_iff, List.cons_lt_cons_iff, UInt8.lt_iff_toNat_lt]
        refine ⟨(lt_or_eq_of_le hx).imp id fun heq => ⟨heq, hle⟩, fun hlt => ?_⟩
        rcases hlt with hlt | ⟨-, hlt⟩
        · exact absurd hlt (Nat.not_lt_zero _)
        · exact hnlt hlt

/-- Without one, they come right after the bytes among the strings of that
length. -/
theorem lt_incrementLoop_iff {p : Bytes} (hp : (incrementLoop p).2 = false) {k : Bytes} (hk : k.length = p.length) :
    k < (incrementLoop p).1 ↔ k ≤ p := by
  induction p generalizing k with
  | nil => cases hp
  | cons b l ih =>
    cases k with
    | nil => cases hk
    | cons x k =>
      have hk' : k.length = l.length := by simpa using hk
      rcases incrementLoop_cons b l with ⟨hl, h⟩ | ⟨hl, hb, h⟩ | ⟨-, -, h⟩
      · rw [h, List.cons_lt_cons_iff, Bytes.cons_le_cons_iff, ih hl hk']
      · obtain ⟨hle, hnlt⟩ := incrementLoop_carry hl hk'
        rw [h, List.cons_lt_cons_iff, Bytes.cons_le_cons_iff, lt_succ_iff hb, le_iff_lt_or_eq]
        simp only [hle, hnlt, and_true, and_false, or_false]
      · rw [h] at hp
        cases hp

theorem incrementLoop_stops {p : Bytes} (h : ∃ b ∈ p, b < 0xFF) : (incrementLoop p).2 = false := by
  induction p with
  | nil =>
    obtain ⟨b, hb, -⟩ := h
    cases hb
  | cons b l ih =>
    rcases incrementLoop_cons b l with ⟨-, heq⟩ | ⟨-, -, heq⟩ | ⟨hl, hb, -⟩
    · rw [heq]
    · rw [heq]
    · -- the carry has come through the bytes behind, and this one does not stop it
      obtain ⟨b', hmem, hb'⟩ := h
      rcases List.mem_cons.mp hmem with rfl | hmem
      · exact absurd hb' hb
      · rw [ih ⟨b', hmem, hb'⟩] at hl
        cases hl

theorem incrementBytes_eq {p : Bytes} (h : (incrementLoop p).2 = false) : incrementBytes p = (incrementLoop p).1 := by
  unfold incrementBytes
  rcases hl : incrementLoop p with ⟨l, carry⟩
  rw [hl] at h
  cases h
  rfl

theorem incrementBytes_next {p : Bytes} (h : ∃ b ∈ p, b < 0xFF) : Bytes.Next p (incrementBytes p) := by
  have hstops := incrementLoop_stops h
  rw [incrementBytes_eq hstops]
  exact ⟨incrementLoop_length p, fun q hq => lt_incrementLoop_iff hstops hq⟩

end ZeroSdk.Dm
