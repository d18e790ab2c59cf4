/-
The postcard wire format: byte arrays raw, integers, lengths and enum
discriminants as LEB128 varints of bounded width, strings and sequences
behind a varint length, an option behind one tag byte, a struct as its
fields in order. No schema and no framing: a value is whatever the type
being read makes of the bytes, and what follows it is left over.

A `Codec` is a writer and a reader with the one law everything else rests
on: a value's bytes, whatever follows them, are read back as the value
(`dec_enc`). The combinators carry the law, so a struct's codec has it by
construction.
-/
import ZeroSdk.Lib.Bytes

namespace Postcard
open Bytes (toNat_toUInt8)

/-- Why a read fails. -/
inductive Error
  | unexpectedEnd
  | badVarint
  | badOption
  | badEnum
  | badUtf8
  deriving DecidableEq, Repr

/-- A writer and a reader for `α`; the reader returns what it leaves. -/
structure Codec (α : Type) where
  enc : α → Bytes
  dec : Bytes → Except Error (α × Bytes)
  dec_enc : ∀ a r, dec (enc a ++ r) = .ok (a, r)

/-- `postcard::from_bytes`: trailing bytes are ignored. -/
def fromBytes {α : Type} (c : Codec α) (b : Bytes) : Except Error α := (c.dec b).map (·.1)

@[simp] theorem fromBytes_enc {α : Type} (c : Codec α) (a : α) : fromBytes c (c.enc a) = .ok a := by
  have := c.dec_enc a []
  rw [List.append_nil] at this
  simp [fromBytes, this, Except.map]

theorem enc_injective {α : Type} (c : Codec α) : Function.Injective c.enc := by
  intro a b h
  have := fromBytes_enc c a
  rw [h, fromBytes_enc] at this
  simpa using this.symm

/-! ## Varints -/

/-- The varint of `n` in at most `k` bytes, seven bits each, low bits first. -/
def varint : Nat → Nat → Bytes
  | 0, _ => []
  | k + 1, n => if n < 128 then [n.toUInt8] else (n % 128 + 128).toUInt8 :: varint k (n / 128)

/-- Reads a varint of at most `k` bytes whose `k`-th byte is at most `last`. -/
def readVarint (last : UInt8) : Nat → Bytes → Except Error (Nat × Bytes)
  | 0, _ => .error .badVarint
  | _ + 1, [] => .error .unexpectedEnd
  | k + 1, b :: l =>
    if b < 0x80 then
      if k = 0 ∧ last < b then .error .badVarint else .ok (b.toNat, l)
    else match readVarint last k l with
      | .ok (n, r) => .ok (b.toNat - 128 + 128 * n, r)
      | .error e => .error e

theorem toUInt8_lt {n m : Nat} (hn : n < 256) (hm : m < 256) : n.toUInt8 < m.toUInt8 ↔ n < m := by
  rw [UInt8.lt_iff_toNat_lt, toNat_toUInt8 hn, toNat_toUInt8 hm]

theorem last_byte_lt {n : Nat} (h : n < 128) : n.toUInt8 < 0x80 := (toUInt8_lt (by omega) (by decide)).mpr h

theorem le_more_byte (n : Nat) : 0x80 ≤ (n % 128 + 128).toUInt8 := by
  rw [UInt8.le_iff_toNat_le, toNat_toUInt8 (by omega)]
  exact Nat.le_add_left _ _

theorem varint_length_le (k n : Nat) : (varint k n).length ≤ k := by
  induction k generalizing n with
  | zero => simp [varint]
  | succ k ih =>
    simp only [varint]
    split
    · simp
    · simpa using ih _

/-- A number below `128 ^ k * (last + 1)` fits `k + 1` bytes and is read back. -/
theorem readVarint_varint {last : UInt8} {k n : Nat} (hl : last.toNat < 128)
    (hn : n < 128 ^ k * (last.toNat + 1)) (r : Bytes) :
    readVarint last (k + 1) (varint (k + 1) n ++ r) = .ok (n, r) := by
  induction k generalizing n with
  | zero =>
    simp only [Nat.pow_zero, Nat.one_mul] at hn
    have h : n < 128 := by omega
    have hlt := last_byte_lt h
    have hle : ¬ last < n.toUInt8 := by
      rw [UInt8.lt_iff_toNat_lt, toNat_toUInt8 (by omega)]; omega
    simp [varint, readVarint, h, hlt, hle, Nat.mod_eq_of_lt (show n < 256 by omega)]
  | succ k ih =>
    rw [varint]
    by_cases h : n < 128
    · have hlt := last_byte_lt h
      simp [readVarint, h, hlt, Nat.mod_eq_of_lt (show n < 256 by omega)]
    · have hb : ¬ (n % 128 + 128).toUInt8 < 0x80 := not_lt.mpr (le_more_byte n)
      have hq : n / 128 < 128 ^ k * (last.toNat + 1) := by
        rw [Nat.div_lt_iff_lt_mul (by decide)]
        calc n < 128 ^ (k + 1) * (last.toNat + 1) := hn
          _ = 128 ^ k * (last.toNat + 1) * 128 := by rw [Nat.pow_succ, Nat.mul_right_comm]
      have hv : (n % 128 + 128).toUInt8.toNat = n % 128 + 128 := toNat_toUInt8 (by omega)
      rw [if_neg h, List.cons_append, readVarint, if_neg hb, ih hq, hv]
      simp only [Except.ok.injEq, Prod.mk.injEq, and_true]
      omega

theorem readVarint_lt {last : UInt8} {k n : Nat} {b r : Bytes}
    (h : readVarint last (k + 1) b = .ok (n, r)) : n < 128 ^ k * (last.toNat + 1) := by
  induction k generalizing n b r with
  | zero =>
    cases b with
    | nil => cases h
    | cons x l =>
      simp only [readVarint] at h
      split at h
      · split at h
        · cases h
        · next hx =>
          simp only [true_and, UInt8.lt_iff_toNat_lt, Nat.not_lt] at hx
          simp only [Except.ok.injEq, Prod.mk.injEq] at h
          omega
      · cases h
  | succ k ih =>
    have hpow : 128 ^ (k + 1) * (last.toNat + 1) = 128 * (128 ^ k * (last.toNat + 1)) := by
      rw [Nat.pow_succ, Nat.mul_comm (128 ^ k), Nat.mul_assoc]
    have hpos : 0 < 128 ^ k * (last.toNat + 1) := Nat.mul_pos (Nat.pow_pos (by decide)) (Nat.succ_pos _)
    cases b with
    | nil => cases h
    | cons x l =>
      rw [readVarint] at h
      split at h
      · next hx =>
        rw [if_neg (by omega)] at h
        simp only [Except.ok.injEq, Prod.mk.injEq] at h
        rw [UInt8.lt_iff_toNat_lt] at hx
        have : x.toNat < 128 := hx
        omega
      · split at h
        · next m r' hm =>
          simp only [Except.ok.injEq, Prod.mk.injEq] at h
          have := ih hm
          have := x.toNat_lt
          omega
        · cases h

theorem varint_of_lt {k n : Nat} (h : n < 128) : varint (k + 1) n = [n.toUInt8] := by rw [varint, if_pos h]

theorem varint_of_le {k n : Nat} (h : 128 ≤ n) :
    varint (k + 1) n = (n % 128 + 128).toUInt8 :: varint k (n / 128) := by
  rw [varint, if_neg (by omega)]

theorem varint_width {j k n : Nat} (hj : n < 128 ^ (j + 1)) (hk : n < 128 ^ (k + 1)) :
    varint (j + 1) n = varint (k + 1) n := by
  induction j generalizing k n with
  | zero =>
    have h : n < 128 := by simpa using hj
    rw [varint_of_lt h, varint_of_lt h]
  | succ j ih =>
    by_cases h : n < 128
    · rw [varint_of_lt h, varint_of_lt h]
    · cases k with
      | zero => exact absurd (show n < 128 by simpa using hk) h
      | succ k =>
        have hq : ∀ {i}, n < 128 ^ (i + 1 + 1) → n / 128 < 128 ^ (i + 1) := by
          intro i hi
          rw [Nat.div_lt_iff_lt_mul (by decide), ← Nat.pow_succ]
          exact hi
        rw [varint_of_le (not_lt.mp h), varint_of_le (not_lt.mp h), ih (hq hj) (hq hk)]

/-- Whatever the widths, a read of a varint that succeeds returns its number. -/
theorem readVarint_varint_eq {last : UInt8} {j k n m : Nat} {r r' : Bytes} (hn : n < 128 ^ (j + 1))
    (h : readVarint last k (varint (j + 1) n ++ r) = .ok (m, r')) : m = n ∧ r' = r := by
  induction k generalizing j n m with
  | zero => cases h
  | succ k ih =>
    by_cases hlt : n < 128
    · rw [varint_of_lt hlt, List.singleton_append, readVarint, if_pos (last_byte_lt hlt), toNat_toUInt8 (by omega)] at h
      split at h
      · cases h
      · cases h
        exact ⟨rfl, rfl⟩
    · have hb : ¬ (n % 128 + 128).toUInt8 < 0x80 := not_lt.mpr (le_more_byte n)
      cases j with
      | zero => exact absurd (show n < 128 by simpa using hn) hlt
      | succ j =>
        have hq : n / 128 < 128 ^ (j + 1) := by
          rw [Nat.div_lt_iff_lt_mul (by decide), ← Nat.pow_succ]
          exact hn
        rw [varint_of_le (not_lt.mp hlt), List.cons_append, readVarint, if_neg hb, toNat_toUInt8 (by omega)] at h
        split at h
        · next q r₁ hr =>
          obtain ⟨hm, hr'⟩ := Prod.mk.inj (Except.ok.inj h)
          obtain ⟨hq', hr₁⟩ := ih hq (hr' ▸ hr)
          exact ⟨by omega, hr₁⟩
        · cases h

/-- A varint is read back exactly if its number is in range of the reader. -/
theorem isOk_readVarint_varint {last : UInt8} {j k n : Nat} (hl : last.toNat < 128) (hn : n < 128 ^ (j + 1))
    (r : Bytes) : (readVarint last (k + 1) (varint (j + 1) n ++ r)).isOk ↔ n < 128 ^ k * (last.toNat + 1) := by
  constructor
  · intro h
    cases hr : readVarint last (k + 1) (varint (j + 1) n ++ r) with
    | error e =>
      rw [hr] at h
      cases h
    | ok p =>
      obtain ⟨m, r'⟩ := p
      have := readVarint_lt hr
      rwa [(readVarint_varint_eq hn hr).1] at this
  · intro h
    have hk : n < 128 ^ (k + 1) := by
      calc n < 128 ^ k * (last.toNat + 1) := h
        _ ≤ 128 ^ k * 128 := Nat.mul_le_mul_left _ hl
    rw [varint_width hn hk, readVarint_varint hl h]
    rfl

/-- Bytes from `0x80` on carry a read over to what follows. -/
theorem isOk_readVarint_high {last : UInt8} {k : Nat} {l r : Bytes} (h : ∀ b ∈ l, 0x80 ≤ b) :
    (readVarint last (l.length + k) (l ++ r)).isOk = (readVarint last k r).isOk := by
  induction l with
  | nil => rw [List.length_nil, Nat.zero_add, List.nil_append]
  | cons b l ih =>
    have hb : ¬ b < 0x80 := not_lt.mpr (h b List.mem_cons_self)
    rw [List.length_cons, Nat.add_right_comm, List.cons_append, readVarint, if_neg hb,
      ← ih fun b hb => h b (List.mem_cons_of_mem _ hb)]
    split
    · next hr =>
      rw [hr]
      rfl
    · next hr => rw [hr]

theorem isOk_readVarint_low {last : UInt8} {k : Nat} {l r : Bytes} (h : ∃ b ∈ l, b < 0x80) (hk : l.length ≤ k) :
    (readVarint last (k + 1) (l ++ r)).isOk := by
  induction l generalizing k with
  | nil => simp at h
  | cons b l ih =>
    rw [List.length_cons] at hk
    rw [List.cons_append, readVarint]
    by_cases hb : b < 0x80
    · rw [if_pos hb, if_neg (by omega)]
      rfl
    · obtain ⟨b', hmem, hb'⟩ := h
      have hmem' : b' ∈ l := by
        rcases List.mem_cons.mp hmem with rfl | hmem
        · exact absurd hb' hb
        · exact hmem
      obtain ⟨k, rfl⟩ : ∃ k', k = k' + 1 := ⟨k - 1, by omega⟩
      have hok := ih ⟨b', hmem', hb'⟩ (by omega : l.length ≤ k)
      rw [if_neg hb]
      cases hr : readVarint last (k + 1) (l ++ r) with
      | ok p => rfl
      | error e =>
        rw [hr] at hok
        cases hok

/-- `varint_u64`: ten bytes, the last at most 1. -/
def u64 : Codec UInt64 where
  enc n := varint 10 n.toNat
  dec b := (readVarint 1 10 b).map fun p => (UInt64.ofNat p.1, p.2)
  dec_enc n r := by
    have hn : n.toNat < 128 ^ 9 * ((1 : UInt8).toNat + 1) := n.toNat_lt
    rw [readVarint_varint (by decide) hn]
    simp [Except.map]

/-- `varint_u32`: five bytes, the last at most 15. -/
def u32 : Codec UInt32 where
  enc n := varint 5 n.toNat
  dec b := (readVarint 15 5 b).map fun p => (UInt32.ofNat p.1, p.2)
  dec_enc n r := by
    have hn : n.toNat < 128 ^ 4 * ((15 : UInt8).toNat + 1) := n.toNat_lt
    rw [readVarint_varint (by decide) hn]
    simp [Except.map]

/-- `varint_usize` on a 64-bit machine: the length in front of a sequence. -/
def readLen (b : Bytes) : Except Error (Nat × Bytes) := readVarint 1 10 b

theorem readLen_varint {n : Nat} (hn : n < 2 ^ 64) (r : Bytes) : readLen (varint 10 n ++ r) = .ok (n, r) :=
  readVarint_varint (by decide) (by simpa using hn) r

theorem readLen_lt {n : Nat} {b r : Bytes} (h : readLen b = .ok (n, r)) : n < 2 ^ 64 :=
  @readVarint_lt 1 9 n b r h

/-! ## Bytes, arrays, strings and sequences -/

/-- One raw byte. -/
def u8 : Codec UInt8 where
  enc b := [b]
  dec
    | [] => .error .unexpectedEnd
    | b :: r => .ok (b, r)
  dec_enc _ _ := rfl

/-- `[u8; n]`: raw bytes. -/
def array (n : Nat) : Codec (Arr n) where
  enc a := a.val
  dec b := if h : n ≤ b.length then .ok (⟨b.take n, by simp [h]⟩, b.drop n) else .error .unexpectedEnd
  dec_enc a r := by
    obtain ⟨l, rfl⟩ := a
    simp

/-- `String`: a varint length, then bytes that must be UTF-8. No input holds
`2 ^ 63` bytes, so a length that large runs into its end. -/
def str : Codec Str where
  enc s := varint 10 s.bytes.length ++ s.bytes
  dec b :=
    match readLen b with
    | .error e => .error e
    | .ok (n, r) =>
      if hn : n ≤ r.length ∧ n < 2 ^ 63 then
        if hv : Utf8.valid (r.take n) = true then
          .ok (⟨r.take n, hv, by rw [List.length_take]; omega⟩, r.drop n)
        else .error .badUtf8
      else .error .unexpectedEnd
  dec_enc s r := by
    have hs := s.len_lt
    have hn : s.bytes.length ≤ (s.bytes ++ r).length ∧ s.bytes.length < 2 ^ 63 := ⟨by simp, hs⟩
    rw [List.append_assoc, readLen_varint (by omega)]
    dsimp only
    rw [dif_pos hn, dif_pos (by simp [s.valid])]
    simp

/-- Reads `n` values in a row. -/
def decN {α : Type} (c : Codec α) : Nat → Bytes → Except Error (List α × Bytes)
  | 0, b => .ok ([], b)
  | n + 1, b =>
    match c.dec b with
    | .error e => .error e
    | .ok (a, r) =>
      match decN c n r with
      | .error e => .error e
      | .ok (l, r) => .ok (a :: l, r)

theorem decN_flatMap {α : Type} (c : Codec α) (l : List α) (r : Bytes) :
    decN c l.length (l.flatMap c.enc ++ r) = .ok (l, r) := by
  induction l with
  | nil => rfl
  | cons a l ih => simp [decN, List.append_assoc, c.dec_enc, ih]

theorem decN_length {α : Type} {c : Codec α} {n : Nat} {b : Bytes} {l : List α} {r : Bytes}
    (h : decN c n b = .ok (l, r)) : l.length = n := by
  induction n generalizing b l r with
  | zero => simp only [decN, Except.ok.injEq, Prod.mk.injEq] at h; simp [← h.1]
  | succ n ih =>
    simp only [decN] at h
    split at h
    · cases h
    split at h
    · cases h
    next hd =>
    simp only [Except.ok.injEq, Prod.mk.injEq] at h
    rw [← h.1, List.length_cons, ih hd]

/-- `Vec<T>`: a varint length, then the elements. -/
def vec {α : Type} (c : Codec α) : Codec (Vec α) where
  enc v := varint 10 v.val.length ++ v.val.flatMap c.enc
  dec b :=
    match hn : readLen b with
    | .error e => .error e
    | .ok (n, r) =>
      match h : decN c n r with
      | .error e => .error e
      | .ok (l, r) => .ok (⟨l, by rw [decN_length h]; exact readLen_lt hn⟩, r)
  dec_enc v r := by
    have hlen := readLen_varint v.property (v.val.flatMap c.enc ++ r)
    rw [← List.append_assoc] at hlen
    split
    · next e h => rw [hlen] at h; cases h
    · next n r₁ h =>
      rw [hlen] at h
      simp only [Except.ok.injEq, Prod.mk.injEq] at h
      obtain ⟨rfl, rfl⟩ := h
      split
      · next e h => rw [decN_flatMap] at h; cases h
      · next l r₂ h =>
        rw [decN_flatMap] at h
        simp only [Except.ok.injEq, Prod.mk.injEq] at h
        obtain ⟨rfl, rfl⟩ := h
        rfl

/-! ## Options, enums and structs -/

/-- `Option<T>`: one tag byte. -/
def option {α : Type} (c : Codec α) : Codec (Option α) where
  enc
    | none => [0]
    | some a => 1 :: c.enc a
  dec
    | [] => .error .unexpectedEnd
    | b :: r =>
      if b = 0 then .ok (none, r)
      else if b = 1 then (c.dec r).map fun p => (some p.1, p.2)
      else .error .badOption
  dec_enc a r := by
    cases a with
    | none => rfl
    | some a => simp [c.dec_enc, Except.map]

theorem four_le : 4 ≤ 2 ^ 32 := by decide

/-- An enum of `n` unit variants: its discriminant, a `u32` varint. -/
def variant (n : Nat) (hn : n ≤ 2 ^ 32) : Codec (Fin n) where
  enc i := varint 5 i.val
  dec b :=
    match readVarint 15 5 b with
    | .error e => .error e
    | .ok (i, r) => if h : i < n then .ok (⟨i, h⟩, r) else .error .badEnum
  dec_enc i r := by
    have hi : i.val < 128 ^ 4 * ((15 : UInt8).toNat + 1) := Nat.lt_of_lt_of_le i.isLt hn
    rw [readVarint_varint (by decide) hi]
    simp

/-- Two fields in a row. -/
def pair {α β : Type} (c : Codec α) (d : Codec β) : Codec (α × β) where
  enc p := c.enc p.1 ++ d.enc p.2
  dec b :=
    match c.dec b with
    | .error e => .error e
    | .ok (x, r) =>
      match d.dec r with
      | .error e => .error e
      | .ok (y, r) => .ok ((x, y), r)
  dec_enc p r := by
    rw [List.append_assoc, c.dec_enc]
    simp [d.dec_enc]

/-- The codec of a type with the same values as `α`: a struct as the tuple
of its fields, an enum as its discriminant. -/
def iso {α β : Type} (c : Codec α) (f : β → α) (g : α → β) (h : ∀ b, g (f b) = b) : Codec β where
  enc b := c.enc (f b)
  dec b := (c.dec b).map fun p => (g p.1, p.2)
  dec_enc b r := by simp [c.dec_enc, h, Except.map]

/-! ## Reads that succeed -/

theorem isOk_map {ε α β : Type} (f : α → β) (x : Except ε α) : (x.map f).isOk = x.isOk := by
  cases x <;> rfl

theorem isOk_mapError {ε ε' α : Type} (f : ε → ε') (x : Except ε α) : (x.mapError f).isOk = x.isOk := by
  cases x <;> rfl

theorem isOk_fromBytes {α : Type} (c : Codec α) (b : Bytes) : (fromBytes c b).isOk = (c.dec b).isOk := isOk_map _ _

theorem isOk_iso {α β : Type} (c : Codec α) (f : β → α) (g : α → β) (h : ∀ b, g (f b) = b) (b : Bytes) :
    ((iso c f g h).dec b).isOk = (c.dec b).isOk := isOk_map _ _

/-- Two types that start with the same field agree up to there. -/
theorem isOk_pair_enc {α β : Type} (c : Codec α) (d : Codec β) (a : α) (r : Bytes) :
    ((pair c d).dec (c.enc a ++ r)).isOk = (d.dec r).isOk := by
  simp only [pair, c.dec_enc]
  cases d.dec r <;> rfl

end Postcard
