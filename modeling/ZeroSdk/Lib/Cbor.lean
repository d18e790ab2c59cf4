/-
The part of CBOR (RFC 8949) that deterministic headers use: a `Value` is
what a reader may return, a `Scalar` is a value without parts, and `encMap`
writes a map of scalars with definite lengths and shortest heads, the
entries in the order given.

How bytes are read is left to the reader; `ReadsMaps` says that one reads
back the maps written here, and `readMap` is such a reader.

A derived struct is a map from its field names to its fields, in order; the
codecs at the end write one (`field`), with a reader that wants exactly that
order.
-/
import Mathlib.Algebra.Group.Int.Defs
import ZeroSdk.Lib.Bytes
import ZeroSdk.Lib.Postcard

namespace Cbor

/-- An integer of major type 0 or 1. -/
abbrev Integer := { i : Int // -2 ^ 64 ≤ i ∧ i < 2 ^ 64 }

/-- A data item; a float is kept as the bits of its double. -/
inductive Value
  | integer (i : Integer)
  | bytes (b : Vec UInt8)
  | float (bits : UInt64)
  | text (s : Str)
  | bool (b : Bool)
  | null
  | tag (n : UInt64) (v : Value)
  | array (l : List Value)
  | map (l : List (Value × Value))

/-- The items without parts that are written. -/
inductive Scalar
  | integer (i : Integer)
  | bytes (b : Vec UInt8)
  | text (s : Str)
  | null
  deriving DecidableEq

def Scalar.toValue : Scalar → Value
  | .integer i => .integer i
  | .bytes b => .bytes b
  | .text s => .text s
  | .null => .null

/-- The integer of a `u64`. -/
def Integer.ofNat {n : Nat} (h : n < 2 ^ 64) : Integer := ⟨n, by omega, by omega⟩

/-- The integer `-1 - n`. -/
def Integer.negative {n : Nat} (h : n < 2 ^ 64) : Integer := ⟨-1 - n, by omega, by omega⟩

/-! ## Writing -/

/-- An argument from 24 on takes `2 ^ width n` bytes. -/
def width (n : Nat) : Nat := if n < 2 ^ 8 then 0 else if n < 2 ^ 16 then 1 else if n < 2 ^ 32 then 2 else 3

/-- The shortest head of a major type with the argument `n`. -/
def head (major n : Nat) : Bytes :=
  if n < 24 then [(major * 32 + n).toUInt8] else (major * 32 + 24 + width n).toUInt8 :: Bytes.be (2 ^ width n) n

def Scalar.enc : Scalar → Bytes
  | .integer i => if 0 ≤ i.val then head 0 i.val.toNat else head 1 (-1 - i.val).toNat
  | .bytes b => head 2 b.val.length ++ b.val
  | .text s => head 3 s.bytes.length ++ s.bytes
  | .null => head 7 22

/-- A map, entry after entry. -/
def encMap (m : List (Scalar × Scalar)) : Bytes := head 5 m.length ++ m.flatMap fun e => e.1.enc ++ e.2.enc

/-- The map as a reader returns it. -/
def mapValue (m : List (Scalar × Scalar)) : Value := .map (m.map fun e => (e.1.toValue, e.2.toValue))

/-- A reader that reads back the maps of scalars. -/
def ReadsMaps (fromReader : Bytes → Except String Value) : Prop :=
  ∀ m : List (Scalar × Scalar), m.length < 2 ^ 64 → fromReader (encMap m) = .ok (mapValue m)

/-! ## A reader -/

def readHead : Bytes → Option (Nat × Nat × Bytes)
  | [] => none
  | b :: l =>
    let info := b.toNat % 32
    if info < 24 then some (b.toNat / 32, info, l)
    else if info < 28 ∧ 2 ^ (info - 24) ≤ l.length then
      some (b.toNat / 32, Bytes.ofBe (l.take (2 ^ (info - 24))), l.drop (2 ^ (info - 24)))
    else none

def readScalar (b : Bytes) : Option (Scalar × Bytes) :=
  match readHead b with
  | some (0, n, r) => if h : n < 2 ^ 64 then some (.integer (.ofNat h), r) else none
  | some (1, n, r) => if h : n < 2 ^ 64 then some (.integer (.negative h), r) else none
  | some (2, n, r) =>
    if h : n ≤ r.length ∧ n < 2 ^ 64 then some (.bytes ⟨r.take n, by rw [List.length_take]; omega⟩, r.drop n) else none
  | some (3, n, r) =>
    if h : Utf8.valid (r.take n) = true ∧ n ≤ r.length ∧ n < 2 ^ 63 then
      some (.text ⟨r.take n, h.1, by rw [List.length_take]; omega⟩, r.drop n)
    else none
  | some (7, 22, r) => some (.null, r)
  | _ => none

def readPairs : Nat → Bytes → Option (List (Scalar × Scalar) × Bytes)
  | 0, b => some ([], b)
  | n + 1, b => do
    let (k, r) ← readScalar b
    let (v, r) ← readScalar r
    let (l, r) ← readPairs n r
    pure ((k, v) :: l, r)

/-- Reads a map of scalars. -/
def readMap (b : Bytes) : Except String Value :=
  match readHead b with
  | some (5, n, r) =>
    match readPairs n r with
    | some (l, _) => .ok (mapValue l)
    | none => .error "unexpected item"
  | _ => .error "not a map"

theorem width_spec {n : Nat} (h : n < 2 ^ 64) : width n < 4 ∧ n < 256 ^ 2 ^ width n := by
  unfold width
  split
  · exact ⟨by omega, by omega⟩
  split
  · exact ⟨by omega, by omega⟩
  split
  · exact ⟨by omega, by omega⟩
  · exact ⟨by omega, by omega⟩

theorem readHead_head {major n : Nat} (hm : major < 8) (hn : n < 2 ^ 64) (r : Bytes) :
    readHead (head major n ++ r) = some (major, n, r) := by
  have hbyte : ∀ {i}, i < 32 → ((major * 32 + i).toUInt8.toNat / 32 = major ∧ (major * 32 + i).toUInt8.toNat % 32 = i) := by
    intro i hi
    rw [Bytes.toNat_toUInt8 (by omega)]
    omega
  unfold head
  split
  · next h =>
    obtain ⟨hdiv, hmod⟩ := hbyte (show n < 32 by omega)
    rw [List.singleton_append, readHead]
    simp only [hdiv, hmod, if_pos h]
  · next h =>
    obtain ⟨hw, hfit⟩ := width_spec hn
    obtain ⟨hdiv, hmod⟩ := hbyte (show 24 + width n < 32 by omega)
    rw [← Nat.add_assoc] at hdiv hmod
    rw [List.cons_append, readHead]
    have hlen : (Bytes.be (2 ^ width n) n).length = 2 ^ width n := Bytes.be_length _ _
    simp only [hdiv, hmod, if_neg (show ¬ 24 + width n < 24 by omega), Nat.add_sub_cancel_left]
    rw [if_pos ⟨by omega, by rw [List.length_append, hlen]; omega⟩, List.take_left' hlen, List.drop_left' hlen,
      Bytes.ofBe_be hfit]

theorem readScalar_enc (s : Scalar) (r : Bytes) : readScalar (s.enc ++ r) = some (s, r) := by
  unfold readScalar
  cases s with
  | integer i =>
    obtain ⟨i, hlo, hhi⟩ := i
    by_cases h : 0 ≤ i
    · have hn : i.toNat < 2 ^ 64 := by omega
      rw [Scalar.enc, if_pos h, readHead_head (by decide) hn]
      simp only [Integer.ofNat, Int.toNat_of_nonneg h, hn, dif_pos]
    · have hn : (-1 - i).toNat < 2 ^ 64 := by omega
      have hcast : ((-1 - i).toNat : Int) = -1 - i := Int.toNat_of_nonneg (by omega)
      rw [Scalar.enc, if_neg h, readHead_head (by decide) hn]
      simp only [Integer.negative, hcast, hn, dif_pos, Int.sub_sub_self]
  | bytes b =>
    obtain ⟨b, hb⟩ := b
    simp only [Scalar.enc, List.append_assoc]
    rw [readHead_head (by decide) hb]
    have hn : b.length ≤ (b ++ r).length ∧ b.length < 2 ^ 64 := ⟨by simp, hb⟩
    simp only [hn, and_self, dif_pos, List.take_left, List.drop_left]
  | text s =>
    have hs := s.len_lt
    simp only [Scalar.enc, List.append_assoc]
    rw [readHead_head (by decide) (by omega)]
    have hn : s.bytes.length ≤ (s.bytes ++ r).length ∧ s.bytes.length < 2 ^ 63 := ⟨by simp, hs⟩
    simp only [List.take_left, List.drop_left, s.valid, hn, and_self, dif_pos]
  | null =>
    rw [Scalar.enc, readHead_head (by decide) (by decide)]
    rfl

theorem readPairs_flatMap (m : List (Scalar × Scalar)) (r : Bytes) :
    readPairs m.length ((m.flatMap fun e => e.1.enc ++ e.2.enc) ++ r) = some (m, r) := by
  induction m with
  | nil => rfl
  | cons e m ih => simp [readPairs, List.append_assoc, readScalar_enc, ih]

theorem readsMaps_readMap : ReadsMaps readMap := by
  intro m hm
  have h := readPairs_flatMap m []
  rw [List.append_nil] at h
  rw [readMap, encMap, readHead_head (by decide) hm]
  simp only [h]

/-! ## Structs -/

open Postcard (Codec decN decN_flatMap decN_length)

/-- The values of a type as items without parts. -/
def scalar {α : Type} (f : α → Scalar) (g : Scalar → Option α) (h : ∀ a, g (f a) = some a) : Codec α where
  enc a := (f a).enc
  dec b :=
    match readScalar b with
    | none => .error .unexpectedEnd
    | some (s, r) =>
      match g s with
      | none => .error .badEnum
      | some a => .ok (a, r)
  dec_enc a r := by
    rw [readScalar_enc]
    simp only [h]

/-- An unsigned integer. -/
def unsigned {α : Type} (toNat : α → Nat) (ofNat : Nat → α) (hlt : ∀ a, toNat a < 2 ^ 64) (h : ∀ a, ofNat (toNat a) = a) :
    Codec α :=
  scalar (fun a => .integer (.ofNat (hlt a)))
    (fun
      | .integer i => some (ofNat i.val.toNat)
      | _ => none)
    fun a => by simp [Integer.ofNat, h]

def u8 : Codec UInt8 :=
  unsigned UInt8.toNat UInt8.ofNat (fun a => lt_trans a.toNat_lt (by decide)) fun _ => UInt8.ofNat_toNat

theorem toNat_u32_lt (n : UInt32) : n.toNat < 2 ^ 64 := lt_trans n.toNat_lt (by decide)

def u32 : Codec UInt32 := unsigned UInt32.toNat UInt32.ofNat toNat_u32_lt fun _ => UInt32.ofNat_toNat

def u64 : Codec UInt64 := unsigned UInt64.toNat UInt64.ofNat UInt64.toNat_lt fun _ => UInt64.ofNat_toNat

def text : Codec Str :=
  scalar .text
    (fun
      | .text s => some s
      | _ => none)
    fun _ => rfl

/-- `n` bytes as a byte string. -/
def byteString (n : Nat) (hn : n < 2 ^ 64) : Codec (Arr n) :=
  scalar (fun a => .bytes ⟨a.val, by rw [a.property]; exact hn⟩)
    (fun
      | .bytes b => if h : b.val.length = n then some ⟨b.val, h⟩ else none
      | _ => none)
    fun a => by simp [a.property]

/-- An array of `n` items. -/
def array {α : Type} (n : Nat) (hn : n < 2 ^ 64) (c : Codec α) : Codec { l : List α // l.length = n } where
  enc a := head 4 n ++ a.val.flatMap c.enc
  dec b :=
    match readHead b with
    | some (4, m, r) =>
      if m = n then
        match h : decN c n r with
        | .error e => .error e
        | .ok (l, r) => .ok (⟨l, decN_length h⟩, r)
      else .error .badVarint
    | _ => .error .badEnum
  dec_enc a r := by
    obtain ⟨l, rfl⟩ := a
    rw [List.append_assoc, readHead_head (by decide) hn]
    simp only [if_true]
    split
    · next e h => rw [decN_flatMap] at h; cases h
    · next l' r' h =>
      rw [decN_flatMap] at h
      simp only [Except.ok.injEq, Prod.mk.injEq] at h
      obtain ⟨rfl, rfl⟩ := h
      rfl

/-- `Vec<T>`: an array of any length. -/
def seq {α : Type} (c : Codec α) : Codec (Vec α) where
  enc v := head 4 v.val.length ++ v.val.flatMap c.enc
  dec b :=
    match readHead b with
    | some (4, n, r) =>
      if hn : n < 2 ^ 64 then
        ((array n hn c).dec b).map fun p => (⟨p.1.val, by rw [p.1.property]; exact hn⟩, p.2)
      else .error .badVarint
    | _ => .error .badEnum
  dec_enc v r := by
    have harray := (array v.val.length v.property c).dec_enc ⟨v.val, rfl⟩ r
    rw [List.append_assoc, readHead_head (by decide) v.property]
    simp only [v.property, dif_pos]
    rw [← List.append_assoc]
    simp only [array] at harray ⊢
    rw [harray]
    rfl

/-- Bytes in front of a value. -/
def prefixed {α : Type} (l : Bytes) (c : Codec α) : Codec α where
  enc a := l ++ c.enc a
  dec b := if l.isPrefixOf b then c.dec (b.drop l.length) else .error .badEnum
  dec_enc a r := by
    rw [List.append_assoc, if_pos (List.isPrefixOf_iff_prefix.mpr (List.prefix_append _ _)), List.drop_left, c.dec_enc]

/-- A field behind its name. -/
def field {α : Type} (name : List Char) (c : Codec α) : Codec α :=
  prefixed (head 3 name.length ++ Bytes.ascii name) c

/-- The `n` fields of a struct. -/
def struct {α : Type} (n : Nat) (fields : Codec α) : Codec α := prefixed (head 5 n) fields

end Cbor
