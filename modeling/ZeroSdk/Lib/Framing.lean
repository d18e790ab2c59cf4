/-
Postcard values carry their own length. A reader either runs out of bytes or
has seen all it looks at, so bytes that are added behind change nothing but
what is left over (`Incremental`). The combinators keep that.

With the law of a codec it says how a value's bytes can be cut: every proper
part from the start of an encoding is refused, for having too few bytes and
not for what is in them (`dec_of_append`).
-/
import ZeroSdk.Lib.Postcard

namespace Postcard
variable {α β : Type}

/-- More input is left over, unless the input has ended too early. -/
def Incremental (f : Bytes → Except Error (α × Bytes)) : Prop :=
  ∀ p q, f p = .error .unexpectedEnd ∨ f (p ++ q) = (f p).map fun x => (x.1, x.2 ++ q)

theorem Incremental.dec_of_append {c : Codec α} (h : Incremental c.dec) {a : α} {p q : Bytes} (henc : c.enc a = p ++ q)
    (hq : q ≠ []) : c.dec p = .error .unexpectedEnd := by
  rcases h p q with hend | happend
  · exact hend
  · have hdec : c.dec (p ++ q) = .ok (a, []) := by
      have hback := c.dec_enc a []
      rwa [List.append_nil, henc] at hback
    rw [hdec] at happend
    cases hp : c.dec p with
    | error e =>
      rw [hp] at happend
      cases happend
    | ok x =>
      rw [hp] at happend
      have hrest : [] = x.2 ++ q := (Prod.mk.inj (Except.ok.inj happend)).2
      exact absurd (List.append_eq_nil_iff.mp hrest.symm).2 hq

theorem Incremental.fromBytes_append {c : Codec α} (h : Incremental c.dec) (p q : Bytes) :
    fromBytes c p = .error .unexpectedEnd ∨ fromBytes c (p ++ q) = fromBytes c p := by
  unfold fromBytes
  rcases h p q with hend | happend
  · rw [hend]
    exact .inl rfl
  · rw [happend]
    refine .inr ?_
    cases c.dec p <;> rfl

/-! ## Combinators -/

theorem Incremental.congr {f g : Bytes → Except Error (α × Bytes)} (hf : Incremental f) (h : ∀ b, f b = g b) :
    Incremental g := funext h ▸ hf

/-- A reader that goes on with what another has left. -/
theorem Incremental.bind {f : Bytes → Except Error (α × Bytes)} (hf : Incremental f)
    {g : α → Bytes → Except Error (β × Bytes)} (hg : ∀ a, Incremental (g a)) :
    Incremental fun b => (f b).bind fun x => g x.1 x.2 := by
  intro p q
  rcases hf p q with hend | happend
  · simp only [hend]
    exact .inl rfl
  · simp only [happend]
    cases f p with
    | error e => exact .inr rfl
    | ok x => exact hg x.1 x.2 q

theorem Incremental.map {f : Bytes → Except Error (α × Bytes)} (hf : Incremental f) (g : α → β) :
    Incremental fun b => (f b).map fun x => (g x.1, x.2) := by
  intro p q
  rcases hf p q with hend | happend
  · simp only [hend]
    exact .inl rfl
  · simp only [happend]
    refine .inr ?_
    cases f p <;> rfl

theorem incremental_readVarint (last : UInt8) (k : Nat) : Incremental (readVarint last k) := by
  induction k with
  | zero => exact fun _ _ => .inr rfl
  | succ k ih =>
    intro p q
    cases p with
    | nil => exact .inl rfl
    | cons b l =>
      rw [List.cons_append, readVarint, readVarint]
      by_cases hb : b < 0x80
      · rw [if_pos hb, if_pos hb]
        split <;> exact .inr rfl
      · rw [if_neg hb, if_neg hb]
        rcases ih l q with hend | happend
        · rw [hend]
          exact .inl rfl
        · rw [happend]
          cases readVarint last k l <;> exact .inr rfl

theorem incremental_array (n : Nat) : Incremental (array n).dec := by
  intro p q
  by_cases hn : n ≤ p.length
  · have hn' : n ≤ (p ++ q).length := by
      rw [List.length_append]
      exact Nat.le_add_right_of_le hn
    refine .inr ?_
    simp only [array, dif_pos hn, dif_pos hn', Except.map]
    simp only [List.take_append_of_le_length hn, List.drop_append_of_le_length hn]
  · exact .inl (dif_neg hn)

theorem length_take_lt {n : Nat} {r : Bytes} (hn : n ≤ r.length ∧ n < 2 ^ 63) : (r.take n).length < 2 ^ 63 := by
  rw [List.length_take]
  omega

theorem incremental_strBytes (n : Nat) : Incremental fun r =>
    if hn : n ≤ r.length ∧ n < 2 ^ 63 then
      if hv : Utf8.valid (r.take n) = true then
        .ok ((⟨r.take n, hv, length_take_lt hn⟩ : Str), r.drop n)
      else .error .badUtf8
    else .error .unexpectedEnd := by
  intro p q
  by_cases hn : n ≤ p.length ∧ n < 2 ^ 63
  · have hn' : n ≤ (p ++ q).length ∧ n < 2 ^ 63 := by
      rw [List.length_append]
      exact ⟨Nat.le_add_right_of_le hn.1, hn.2⟩
    refine .inr ?_
    simp only [dif_pos hn, dif_pos hn']
    simp only [List.take_append_of_le_length hn.1, List.drop_append_of_le_length hn.1]
    split <;> rfl
  · exact .inl (dif_neg hn)

theorem incremental_str : Incremental str.dec := by
  refine ((incremental_readVarint 1 10).bind incremental_strBytes).congr fun b => ?_
  simp only [str, readLen]
  cases readVarint 1 10 b <;> rfl

theorem incremental_u64 : Incremental u64.dec := (incremental_readVarint 1 10).map UInt64.ofNat

theorem incremental_discriminant (n i : Nat) : Incremental fun r =>
    if h : i < n then .ok ((⟨i, h⟩ : Fin n), r) else .error .badEnum := by
  intro p q
  by_cases h : i < n
  · exact .inr (by simp only [dif_pos h]; rfl)
  · exact .inr (by simp only [dif_neg h]; rfl)

theorem incremental_variant (n : Nat) (hn : n ≤ 2 ^ 32) : Incremental (variant n hn).dec := by
  refine ((incremental_readVarint 15 5).bind (incremental_discriminant n)).congr fun b => ?_
  simp only [variant]
  cases readVarint 15 5 b <;> rfl

theorem incremental_pair {c : Codec α} {d : Codec β} (hc : Incremental c.dec) (hd : Incremental d.dec) :
    Incremental (pair c d).dec := by
  refine (hc.bind fun a => hd.map fun y => (a, y)).congr fun b => ?_
  simp only [pair]
  cases c.dec b with
  | error e => rfl
  | ok x =>
    simp only [Except.bind]
    cases d.dec x.2 <;> rfl

theorem incremental_iso {c : Codec α} (hc : Incremental c.dec) (f : β → α) (g : α → β) (h : ∀ b, g (f b) = b) :
    Incremental (iso c f g h).dec := hc.map g

end Postcard
