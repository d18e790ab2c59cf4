/-
What `MessageAad::decode` makes of a map. It goes through the entries once,
and an entry under one of the six keys either stops it or is the field's value
from then on (`decodeEntry_eq_ok`). Every value is taken as it is but one: a
`schema_tag` is read as a `u64` and then cut to 32 bits (`narrow`). So a
header that was read is the one that was written exactly if no `schema_tag`
in the map is 2^32 or more (`decode_faithful_iff`).
-/
import ZeroSdk.Crypto.Aad

namespace ZeroSdk.Crypto
open Cbor (Value Integer)

/-! ## The values of a header -/

/-- Sixteen bytes as a byte string. -/
def bytesValue (b : Arr 16) : Value := .bytes ⟨b.val, length_id_lt b⟩

def u64Value (n : UInt64) : Value := .integer (.ofNat n.toNat_lt)

def u32Value (n : UInt32) : Value := .integer (.ofNat (Cbor.toNat_u32_lt n))

def prevValue : Option SectorId → Value
  | some sid => bytesValue sid.bytes
  | none => .null

/-- The value of a field. -/
def MessageAad.value (a : MessageAad) : Field → Value
  | .epoch => u64Value a.epoch.val
  | .prevSectorId => prevValue a.prevSectorId
  | .schemaTag => u32Value a.schemaTag.val
  | .sectorId => bytesValue a.sectorId.bytes
  | .senderIdentity => bytesValue a.senderIdentity.bytes
  | .senderMachine => bytesValue a.senderMachine.bytes

theorem MessageAad.mapValue_entries (a : MessageAad) :
    Cbor.mapValue a.entries = .map (Field.all.map fun f => (.text f.key, a.value f)) := by
  obtain ⟨tag, sid, ident, machine, epoch, prev⟩ := a
  cases prev <;> rfl

/-- A value that some header has in the field. -/
def Field.Fits (f : Field) (v : Value) : Prop := ∃ a : MessageAad, a.value f = v

/-- The header is what the map says, and the map says nothing that does not
fit a header. -/
structure Faithful (entries : List (Value × Value)) (a : MessageAad) : Prop where
  value : ∀ f : Field, (.text f.key, a.value f) ∈ entries
  fits : ∀ (f : Field) v, (.text f.key, v) ∈ entries → f.Fits v

/-! ## One entry -/

/-- The values found so far. -/
def Found.value (found : Found) : Field → Option Value
  | .epoch => found.epoch.map u64Value
  | .prevSectorId => found.prevSectorId.map prevValue
  | .schemaTag => found.schemaTag.map u32Value
  | .sectorId => found.sectorId.map fun id => bytesValue id.bytes
  | .senderIdentity => found.senderIdentity.map fun id => bytesValue id.bytes
  | .senderMachine => found.senderMachine.map fun id => bytesValue id.bytes

/-- What becomes of a value: a schema tag is cut to 32 bits. -/
def Field.narrow : Field → Value → Value
  | .schemaTag, .integer i => u32Value (UInt64.ofNat i.val.toNat).toUInt32
  | _, v => v

/-- What `decode` accepts under a key: any `u64` as a schema tag, and otherwise
what fits. -/
def Field.Accepts : Field → Value → Prop
  | .schemaTag, v => ∃ i : Integer, v = .integer i ∧ 0 ≤ i.val
  | f, v => f.Fits v

theorem Field.ofKey_eq_some {s : Str} {f : Field} (h : ofKey s = some f) : s = f.key := by
  have hkey := List.find?_some h
  exact (of_decide_eq_true hkey).symm

theorem Field.key_inj {f g : Field} (h : f.key = g.key) : f = g := by
  have hof := ofKey_key f
  rw [h, ofKey_key] at hof
  exact (Option.some.inj hof).symm

variable {c : Ciborium}

theorem extractU64_eq_ok {v : Value} {field : String} {n : UInt64} (h : extractU64 c v field = .ok n) :
    ∃ i : Integer, v = .integer i ∧ 0 ≤ i.val ∧ n = UInt64.ofNat i.val.toNat := by
  unfold extractU64 at h
  split at h
  · next i =>
    split at h
    · next hpos =>
      cases h
      exact ⟨i, rfl, hpos, rfl⟩
    · cases h
  · cases h

theorem u64Value_of_integer {i : Integer} (h : 0 ≤ i.val) : u64Value (UInt64.ofNat i.val.toNat) = .integer i := by
  have hlt := i.property.2
  have hnat : (UInt64.ofNat i.val.toNat).toNat = i.val.toNat := by
    rw [UInt64.toNat_ofNat']
    exact Nat.mod_eq_of_lt (by omega)
  refine congrArg Value.integer (Subtype.ext ?_)
  change ((UInt64.ofNat i.val.toNat).toNat : Int) = i.val
  rw [hnat, Int.toNat_of_nonneg h]

theorem bytesTo16_eq_ok {b : Vec UInt8} {field : String} {a : Arr 16} (h : bytesTo16 b.val field = .ok a) :
    Value.bytes b = bytesValue a := by
  unfold bytesTo16 at h
  split at h
  · cases h
    rfl
  · cases h

theorem extractBytes16_eq_ok {v : Value} {field : String} {a : Arr 16} (h : extractBytes16 c v field = .ok a) :
    v = bytesValue a := by
  unfold extractBytes16 at h
  split at h
  · exact bytesTo16_eq_ok h
  · cases h

/-- A header to put a value in. -/
def blank : MessageAad := ⟨⟨0⟩, ⟨Arr.fill 16 0⟩, ⟨Arr.fill 16 0⟩, ⟨Arr.fill 16 0⟩, ⟨0⟩, none⟩

/-- A field of sixteen bytes: what `extract_bytes16` takes is accepted and
becomes its value. -/
theorem bytes16Field_eq_ok {f : Field} {found found' : Found} {v : Value} {field : String} {set : Arr 16 → Found}
    (h : (extractBytes16 c v field >>= fun id => .ok (set id)) = .ok found')
    (hset : ∀ id, f.Accepts (bytesValue id) ∧
      (set id).value = Function.update found.value f (some (f.narrow (bytesValue id)))) :
    f.Accepts v ∧ found'.value = Function.update found.value f (some (f.narrow v)) := by
  obtain ⟨id, hid, h⟩ := bind_eq_ok.mp h
  cases h
  obtain rfl := extractBytes16_eq_ok hid
  exact hset id

/-- An entry under a field's key is accepted and becomes the field's value;
any other one is passed over. -/
theorem decodeEntry_eq_ok {found found' : Found} {k v : Value} (h : decodeEntry c found (k, v) = .ok found') :
    ((∀ f : Field, k ≠ .text f.key) ∧ found' = found) ∨
    ∃ f : Field, k = .text f.key ∧ f.Accepts v ∧
      found'.value = Function.update found.value f (some (f.narrow v)) := by
  unfold decodeEntry at h
  split at h
  · next key v heq =>
    obtain ⟨rfl, rfl⟩ := Prod.mk.inj heq
    split at h
    · next hf =>
      obtain rfl := Field.ofKey_eq_some hf
      obtain ⟨n, hn, h⟩ := bind_eq_ok.mp h
      obtain ⟨i, rfl, hpos, rfl⟩ := extractU64_eq_ok hn
      cases h
      have hval := u64Value_of_integer hpos
      refine .inr ⟨.epoch, rfl, ⟨{ blank with epoch := ⟨_⟩ }, hval⟩, funext fun g => ?_⟩
      cases g with
      | epoch => exact congrArg some hval
      | _ => rfl
    · next hf =>
      obtain rfl := Field.ofKey_eq_some hf
      obtain ⟨prev, hval, rfl⟩ : ∃ prev, prevValue prev = v ∧ found' = { found with prevSectorId := some prev } := by
        split at h
        · cases h
          exact ⟨none, rfl, rfl⟩
        · obtain ⟨id, hid, h⟩ := bind_eq_ok.mp h
          cases h
          exact ⟨some ⟨id⟩, (bytesTo16_eq_ok hid).symm, rfl⟩
        · cases h
      refine .inr ⟨.prevSectorId, rfl, ⟨{ blank with prevSectorId := prev }, hval⟩, funext fun g => ?_⟩
      cases g with
      | prevSectorId => exact congrArg some hval
      | _ => rfl
    · next hf =>
      obtain rfl := Field.ofKey_eq_some hf
      obtain ⟨n, hn, h⟩ := bind_eq_ok.mp h
      obtain ⟨i, rfl, hpos, rfl⟩ := extractU64_eq_ok hn
      cases h
      refine .inr ⟨.schemaTag, rfl, ⟨i, rfl, hpos⟩, funext fun g => ?_⟩
      cases g <;> rfl
    · next hf =>
      obtain rfl := Field.ofKey_eq_some hf
      refine .inr ⟨.sectorId, rfl, bytes16Field_eq_ok h fun id => ?_⟩
      refine ⟨⟨{ blank with sectorId := ⟨id⟩ }, rfl⟩, funext fun g => ?_⟩
      cases g <;> rfl
    · next hf =>
      obtain rfl := Field.ofKey_eq_some hf
      refine .inr ⟨.senderIdentity, rfl, bytes16Field_eq_ok h fun id => ?_⟩
      refine ⟨⟨{ blank with senderIdentity := ⟨id⟩ }, rfl⟩, funext fun g => ?_⟩
      cases g <;> rfl
    · next hf =>
      obtain rfl := Field.ofKey_eq_some hf
      refine .inr ⟨.senderMachine, rfl, bytes16Field_eq_ok h fun id => ?_⟩
      refine ⟨⟨{ blank with senderMachine := ⟨id⟩ }, rfl⟩, funext fun g => ?_⟩
      cases g <;> rfl
    · next hf =>
      cases h
      refine .inl ⟨fun f hk => ?_, rfl⟩
      obtain rfl := Value.text.inj hk
      rw [Field.ofKey_key] at hf
      cases hf
  · next hother =>
    cases h
    refine .inl ⟨fun f hk => ?_, rfl⟩
    subst hk
    exact hother _ _ rfl

/-! ## The loop -/

/-- A value found comes from an entry, cut as its field is. -/
theorem decodeEntries_eq_ok {entries : List (Value × Value)} {found found' : Found}
    (h : entries.foldlM (decodeEntry c) found = .ok found') :
    (∀ f : Field, found'.value f = found.value f ∨
      ∃ v, (.text f.key, v) ∈ entries ∧ found'.value f = some (f.narrow v)) ∧
    ∀ (f : Field) v, (.text f.key, v) ∈ entries → f.Accepts v := by
  induction entries generalizing found with
  | nil =>
    cases h
    exact ⟨fun f => .inl rfl, fun f v hv => by cases hv⟩
  | cons e entries ih =>
    obtain ⟨k, v⟩ := e
    rw [List.foldlM_cons] at h
    obtain ⟨found₁, hstep, h⟩ := bind_eq_ok.mp h
    obtain ⟨hvalue, haccepts⟩ := ih h
    rcases decodeEntry_eq_ok hstep with ⟨hother, rfl⟩ | ⟨g, rfl, hg, hupd⟩
    · refine ⟨fun f => (hvalue f).imp_right ?_, fun f w hw => ?_⟩
      · rintro ⟨w, hw, heq⟩
        exact ⟨w, List.mem_cons_of_mem _ hw, heq⟩
      · rcases List.mem_cons.mp hw with heq | hw
        · exact absurd (Prod.mk.inj heq).1.symm (hother f)
        · exact haccepts f w hw
    · refine ⟨fun f => ?_, fun f w hw => ?_⟩
      · rcases hvalue f with heq | ⟨w, hw, heq⟩
        · rw [hupd] at heq
          by_cases hfg : f = g
          · subst hfg
            rw [Function.update_self] at heq
            exact .inr ⟨v, List.mem_cons_self, heq⟩
          · rw [Function.update_of_ne hfg] at heq
            exact .inl heq
        · exact .inr ⟨w, List.mem_cons_of_mem _ hw, heq⟩
      · rcases List.mem_cons.mp hw with heq | hw
        · obtain ⟨hkey, rfl⟩ := Prod.mk.inj heq
          rw [Field.key_inj (Value.text.inj hkey)]
          exact hg
        · exact haccepts f w hw

theorem finish_eq_ok {found : Found} {a : MessageAad} (h : found.finish = .ok a) (f : Field) :
    found.value f = some (a.value f) := by
  unfold Found.finish at h
  obtain ⟨tag, htag, h⟩ := bind_eq_ok.mp h
  obtain ⟨sid, hsid, h⟩ := bind_eq_ok.mp h
  obtain ⟨ident, hident, h⟩ := bind_eq_ok.mp h
  obtain ⟨machine, hmachine, h⟩ := bind_eq_ok.mp h
  obtain ⟨epoch, hepoch, h⟩ := bind_eq_ok.mp h
  obtain ⟨prev, hprev, h⟩ := bind_eq_ok.mp h
  cases h
  cases f with
  | epoch => rw [Found.value, okOr_eq_ok.mp hepoch]; rfl
  | prevSectorId => rw [Found.value, okOr_eq_ok.mp hprev]; rfl
  | schemaTag => rw [Found.value, okOr_eq_ok.mp htag]; rfl
  | sectorId => rw [Found.value, okOr_eq_ok.mp hsid]; rfl
  | senderIdentity => rw [Found.value, okOr_eq_ok.mp hident]; rfl
  | senderMachine => rw [Found.value, okOr_eq_ok.mp hmachine]; rfl

/-- What `decode` returns: each field the value of an entry, cut as it is. -/
theorem decode_eq_ok {bytes : Bytes} {a : MessageAad} (h : MessageAad.decode c bytes = .ok a) :
    ∃ entries, c.fromReader bytes = .ok (.map entries) ∧
      (∀ f : Field, ∃ v, (.text f.key, v) ∈ entries ∧ a.value f = f.narrow v) ∧
      ∀ (f : Field) v, (.text f.key, v) ∈ entries → f.Accepts v := by
  unfold MessageAad.decode at h
  obtain ⟨value, hread, h⟩ := bind_eq_ok.mp h
  split at h
  · next entries =>
    obtain ⟨found, hloop, h⟩ := bind_eq_ok.mp h
    obtain ⟨hvalue, haccepts⟩ := decodeEntries_eq_ok hloop
    refine ⟨entries, mapError_eq_ok.mp hread, fun f => ?_, haccepts⟩
    have hfin := finish_eq_ok h f
    rcases hvalue f with hnone | ⟨v, hv, heq⟩
    · -- nothing is found before the first entry
      rw [hfin] at hnone
      cases f <;> cases hnone
    · rw [hfin] at heq
      exact ⟨v, hv, Option.some.inj heq⟩
  · cases h

/-! ## Faithfulness -/

/-- A tag below 2^32 is not cut. -/
theorem narrow_of_lt {i : Integer} (hpos : 0 ≤ i.val) (hlt : i.val < 2 ^ 32) :
    u32Value (UInt64.ofNat i.val.toNat).toUInt32 = .integer i := by
  have hnat : (UInt64.ofNat i.val.toNat).toUInt32.toNat = i.val.toNat := by
    rw [UInt64.toNat_toUInt32, UInt64.toNat_ofNat']
    omega
  refine congrArg Value.integer (Subtype.ext ?_)
  change ((UInt64.ofNat i.val.toNat).toUInt32.toNat : Int) = i.val
  rw [hnat, Int.toNat_of_nonneg hpos]

/-- **When decoding is faithful.** A header that `decode` returns has in each
field the value of an entry of the map, and every value under one of the keys
fits its field, exactly if no schema tag in the map is 2^32 or more. -/
theorem decode_faithful_iff {bytes : Bytes} {a : MessageAad} (h : MessageAad.decode c bytes = .ok a) :
    ∃ entries, c.fromReader bytes = .ok (.map entries) ∧
      (Faithful entries a ↔ ∀ i : Integer, (.text Field.schemaTag.key, .integer i) ∈ entries → i.val < 2 ^ 32) := by
  obtain ⟨entries, hread, hvalue, haccepts⟩ := decode_eq_ok h
  refine ⟨entries, hread, fun hf i hi => ?_, fun hlt => ?_⟩
  · obtain ⟨a', ha'⟩ := hf.fits .schemaTag _ hi
    have hi' : i.val = a'.schemaTag.val.toNat := (congrArg Subtype.val (Value.integer.inj ha')).symm
    have := a'.schemaTag.val.toNat_lt
    omega
  · -- what is accepted fits and is not cut
    have hkeep : ∀ (f : Field) v, (.text f.key, v) ∈ entries → f.Fits v ∧ f.narrow v = v := by
      intro f v hv
      have hacc := haccepts f v hv
      cases f with
      | schemaTag =>
        obtain ⟨i, rfl, hpos⟩ := hacc
        have hval := narrow_of_lt hpos (hlt i hv)
        exact ⟨⟨{ blank with schemaTag := ⟨_⟩ }, hval⟩, hval⟩
      | _ => exact ⟨hacc, rfl⟩
    refine ⟨fun f => ?_, fun f v hv => (hkeep f v hv).1⟩
    obtain ⟨v, hv, heq⟩ := hvalue f
    rw [heq, (hkeep f v hv).2]
    exact hv

/-- A reader of maps. -/
def mapReader : Ciborium := ⟨Cbor.readMap, fun _ => ""⟩

theorem readsMaps_mapReader : Cbor.ReadsMaps mapReader.fromReader := Cbor.readsMaps_readMap

theorem decode_faithful_iff_blank :
    MessageAad.decode mapReader (Cbor.encMap blank.entries) = .ok blank ∧
      ∃ entries, mapReader.fromReader (Cbor.encMap blank.entries) = .ok (.map entries) ∧ Faithful entries blank := by
  have hdec := MessageAad.decode_encode mapReader readsMaps_mapReader blank
  obtain ⟨entries, hread, hiff⟩ := decode_faithful_iff hdec
  refine ⟨hdec, entries, hread, hiff.mpr fun i hi => ?_⟩
  have hlen : blank.entries.length < 2 ^ 64 := show 6 < 2 ^ 64 by decide
  have hmap := readsMaps_mapReader blank.entries hlen
  rw [blank.mapValue_entries] at hmap
  obtain rfl := Value.map.inj (Except.ok.inj (hread.symm.trans hmap))
  obtain ⟨f, -, hf⟩ := List.mem_map.mp hi
  obtain ⟨hkey, hval⟩ := Prod.mk.inj hf
  obtain rfl := Field.key_inj (Value.text.inj hkey)
  obtain rfl := Value.integer.inj hval
  decide

/-- The entries of a header whose schema tag is 2^32 + 1. -/
def wideEntries : List (Cbor.Scalar × Cbor.Scalar) :=
  blank.entries.set 2 (.text Field.schemaTag.key, .integer ⟨2 ^ 32 + 1, by decide, by decide⟩)

/-- It is read as 1. -/
theorem wide_tag_is_cut :
    MessageAad.decode mapReader (Cbor.encMap wideEntries) = .ok { blank with schemaTag := ⟨1⟩ } ∧
      ∃ entries, mapReader.fromReader (Cbor.encMap wideEntries) = .ok (.map entries) ∧
        ¬ Faithful entries { blank with schemaTag := ⟨1⟩ } := by
  refine ⟨by decide +kernel, _, readsMaps_mapReader wideEntries (show 6 < 2 ^ 64 by decide), fun hf => ?_⟩
  have htag := hf.value .schemaTag
  simp +decide [wideEntries, blank, MessageAad.entries, MessageAad.value, Cbor.Scalar.toValue] at htag
  exact absurd (congrArg Subtype.val (Value.integer.inj htag)) (by decide)

end ZeroSdk.Crypto
