/-
The key of an inbox row, both ways. A key is 72 bytes at fixed offsets:
identity, machine, `u64::MAX - last_ts` in big-endian, conversation. Every
string of that length is the key of exactly one row, and the order of an
owner's keys is the order its list is shown in (`inbox_keys`).
-/
import ZeroSdk.Inbox.Service

namespace ZeroSdk.Inbox

/-- `KEY_LEN`: 16 + 16 + 8 + 32. -/
def keyLen : Nat := 16 + 16 + 8 + 32

/-- `decode_key`: nothing for a key of another length. -/
def decodeKey (key : Bytes) : Option (IdentityId × MachineId × UInt64 × ConversationId) :=
  if h : key.length = keyLen then
    have hlen : key.length = 72 := h
    let id : Arr 16 := ⟨key.take 16, by rw [List.length_take]; omega⟩
    let mid : Arr 16 := ⟨(key.drop 16).take 16, by rw [List.length_take, List.length_drop]; omega⟩
    let invertedTs := Bytes.ofBe ((key.drop 32).take 8)
    let lastTs := UInt64.ofNat (2 ^ 64 - 1 - invertedTs)
    let cid : Arr 32 := ⟨key.drop 40, by rw [List.length_drop]; omega⟩
    some (⟨id⟩, ⟨mid⟩, lastTs, ⟨cid⟩)
  else none

theorem encodeKey_length (i : IdentityId) (m : MachineId) (t : UInt64) (c : ConversationId) :
    (encodeKey i m t c).length = keyLen := by
  simp only [encodeKey, List.length_append, i.bytes.property, m.bytes.property, c.bytes.property, Bytes.be_length]
  rfl

/-- The four parts of a key at their offsets. -/
theorem encodeKey_parts (i : IdentityId) (m : MachineId) (t : UInt64) (c : ConversationId) :
    (encodeKey i m t c).take 16 = i.bytes.val ∧ ((encodeKey i m t c).drop 16).take 16 = m.bytes.val ∧
      ((encodeKey i m t c).drop 32).take 8 = Bytes.be 8 (2 ^ 64 - 1 - t.toNat) ∧
      (encodeKey i m t c).drop 40 = c.bytes.val := by
  have hi := i.bytes.property
  have hm := m.bytes.property
  have hts : (Bytes.be 8 (2 ^ 64 - 1 - t.toNat)).length = 8 := Bytes.be_length _ _
  have him : (i.bytes.val ++ m.bytes.val).length = 32 := by rw [List.length_append, hi, hm]
  have himt : (i.bytes.val ++ m.bytes.val ++ Bytes.be 8 (2 ^ 64 - 1 - t.toNat)).length = 40 := by
    rw [List.length_append, him, hts]
  unfold encodeKey
  refine ⟨?_, ?_, ?_, ?_⟩
  · rw [List.append_assoc, List.append_assoc, List.take_left' hi]
  · rw [List.append_assoc, List.append_assoc, List.drop_left' hi, List.take_left' hm]
  · rw [List.append_assoc, List.drop_left' him, List.take_left' hts]
  · rw [List.drop_left' himt]

theorem decodeKey_encodeKey (i : IdentityId) (m : MachineId) (t : UInt64) (c : ConversationId) :
    decodeKey (encodeKey i m t c) = some (i, m, t, c) := by
  obtain ⟨hi, hm, hts, hc⟩ := encodeKey_parts i m t c
  have ht := t.toNat_lt
  have hts' : Bytes.ofBe (((encodeKey i m t c).drop 32).take 8) = 2 ^ 64 - 1 - t.toNat := by
    rw [hts, Bytes.ofBe_be (by omega)]
  have hback : UInt64.ofNat (2 ^ 64 - 1 - (2 ^ 64 - 1 - t.toNat)) = t := by
    rw [Nat.sub_sub_self (by omega), UInt64.ofNat_toNat]
  rw [decodeKey, dif_pos (encodeKey_length i m t c)]
  simp only [hi, hm, hts', hc, hback, Subtype.coe_eta]

/-- The parts of a key, put together, are the key. -/
theorem encodeKey_decodeKey (b : Arr keyLen) :
    ∃ i m t c, decodeKey b.val = some (i, m, t, c) ∧ encodeKey i m t c = b.val := by
  obtain ⟨b, hlen⟩ := b
  have hlen' : b.length = 72 := hlen
  rw [decodeKey, dif_pos hlen]
  refine ⟨_, _, _, _, rfl, ?_⟩
  have htl : ((b.drop 32).take 8).length = 8 := by rw [List.length_take, List.length_drop]; omega
  have hlt := Bytes.ofBe_lt ((b.drop 32).take 8)
  rw [htl] at hlt
  have hts : (UInt64.ofNat (2 ^ 64 - 1 - Bytes.ofBe ((b.drop 32).take 8))).toNat =
      2 ^ 64 - 1 - Bytes.ofBe ((b.drop 32).take 8) := by
    rw [UInt64.toNat_ofNat']
    exact Nat.mod_eq_of_lt (by omega)
  have hbe : Bytes.be 8 (Bytes.ofBe ((b.drop 32).take 8)) = (b.drop 32).take 8 := by
    have h := Bytes.be_ofBe ((b.drop 32).take 8)
    rwa [htl] at h
  rw [encodeKey, hts, Nat.sub_sub_self (by omega), hbe]
  simp only
  calc b.take 16 ++ (b.drop 16).take 16 ++ (b.drop 32).take 8 ++ b.drop 40
      = b.take 32 ++ (b.drop 32).take 8 ++ b.drop 40 := by rw [← List.take_add]
    _ = b.take 40 ++ b.drop 40 := by rw [← List.take_add]
    _ = b := List.take_append_drop 40 b

/-- **Inbox keys order-embed and round-trip.** Keys of one owner compare by
descending timestamp, then by ascending conversation; a key is decoded to what
it was encoded from; every 72-byte string is the key of what it decodes to;
and a key starts with an owner's prefix exactly if it is a key of this owner. -/
theorem inbox_keys :
    (∀ i m t₁ t₂ c₁ c₂, encodeKey i m t₁ c₁ < encodeKey i m t₂ c₂ ↔
      t₁ > t₂ ∨ t₁ = t₂ ∧ c₁.bytes.val < c₂.bytes.val) ∧
    (∀ i m t c, decodeKey (encodeKey i m t c) = some (i, m, t, c)) ∧
    (∀ b : Arr keyLen, ∃ i m t c, decodeKey b.val = some (i, m, t, c) ∧ encodeKey i m t c = b.val) ∧
    ∀ i m i' m' t c, ownerPrefix i m <+: encodeKey i' m' t c ↔ i = i' ∧ m = m' := by
  refine ⟨encodeKey_lt_iff, decodeKey_encodeKey, encodeKey_decodeKey, fun i m i' m' t c => ?_⟩
  have hiff := @InboxService.pre_isPrefix_iff ⟨i, m⟩ ⟨i', m'⟩ ⟨c, .dm, t, 0, i, Str.empty⟩
  rw [InboxService.mk.injEq] at hiff
  exact hiff

end ZeroSdk.Inbox
