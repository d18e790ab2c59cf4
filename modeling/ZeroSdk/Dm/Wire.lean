/-
Direct messages and receipts on the wire. The two payloads start with the
same four identifiers, and nothing in the bytes says which of the two they
are: after 80 bytes a receipt has its status and its time, a message its
text and its time. So each kind may be read as the other. A receipt's status
is then the length of the text, and its time has to start with that many
bytes of UTF-8 (`isOk_decodeDm_receipt`); a message's text length is then
the status, and its text the time (`isOk_decodeReceipt_dm`).
-/
import ZeroSdk.Dm.Chains

namespace ZeroSdk.Dm
open Postcard

/-! ## A receipt read as a message -/

/-- A receipt whose bytes are also those of a message. -/
def ReceiptPayload.LooksLikeDm (r : ReceiptPayload) : Prop :=
  let t := r.timestampMs.toNat
  match r.status with
  | .queued => True
  | .sent => False
  -- the time starts with a two-byte character
  | .delivered => 2 ^ 14 ≤ t ∧ (66 ≤ t % 128 ∧ t % 128 < 96) ∧ t / 128 % 128 < 64
  -- the time starts with a three-byte character, not overlong and no surrogate
  | .read => 2 ^ 21 ≤ t ∧ (96 ≤ t % 128 ∧ t % 128 < 112) ∧ t / 128 % 128 < 64 ∧ t / 128 / 128 % 128 < 64 ∧
      (t % 128 = 96 → 32 ≤ t / 128 % 128) ∧ (t % 128 = 109 → t / 128 % 128 < 32)

theorem isOk_text_time {n : Nat} (hn : n < 128) (v : Bytes) :
    ((pair str u64).dec (n.toUInt8 :: v)).isOk ↔
      n ≤ v.length ∧ Utf8.valid (v.take n) = true ∧ (readVarint 1 10 (v.drop n)).isOk := by
  have hlen : readLen (n.toUInt8 :: v) = .ok (n, v) := by
    rw [← List.singleton_append, ← varint_of_lt (k := 9) hn]
    exact readLen_varint (by omega) v
  simp only [pair, str, hlen]
  split
  · next e hstr =>
    split at hstr
    · next hle =>
      split at hstr
      · cases hstr
      · next hv => simp [hv, Except.isOk, Except.toBool]
    · next hle =>
      have : ¬ n ≤ v.length := fun h => hle ⟨h, by omega⟩
      simp [this, Except.isOk, Except.toBool]
  · next s r hstr =>
    split at hstr
    · next hle =>
      split at hstr
      · next hv =>
        cases hstr
        have hmap := isOk_map (fun p : Nat × Bytes => (UInt64.ofNat p.1, p.2)) (readVarint 1 10 (v.drop n))
        simp only [hle.1, hv, true_and, ← hmap, u64]
        cases (readVarint 1 10 (v.drop n)).map fun p => (UInt64.ofNat p.1, p.2) <;> simp [Except.isOk, Except.toBool]
      · cases hstr
    · cases hstr

/-- The first `n` bytes of a time are a text, and a number follows them. -/
def TextInTime (n t : Nat) : Prop :=
  n ≤ (varint 10 t).length ∧ Utf8.valid ((varint 10 t).take n) = true ∧ (readVarint 1 10 ((varint 10 t).drop n)).isOk

theorem not_isOk_readVarint_nil : (readVarint 1 10 []).isOk = false := rfl

/-- What is left of a time after its first bytes is a number again. -/
theorem isOk_readVarint_rest {k q : Nat} (hk : k < 9) (hq : q < 128 ^ (k + 1)) :
    (readVarint 1 10 (varint (k + 1) q)).isOk := by
  have hle : 128 ^ (k + 1) ≤ 128 ^ 9 := Nat.pow_le_pow_right (by decide) (by omega)
  have hlast : (1 : UInt8).toNat = 1 := rfl
  have h : (readVarint 1 10 (varint (k + 1) q ++ [])).isOk :=
    (isOk_readVarint_varint (by decide) hq []).mpr (by omega)
  rwa [List.append_nil] at h

theorem more_byte_toNat (n : Nat) : (n % 128 + 128).toUInt8.toNat = n % 128 + 128 := Bytes.toNat_toUInt8 (by omega)

theorem textInTime_zero {t : Nat} (ht : t < 2 ^ 64) : TextInTime 0 t := by
  have h : (readVarint 1 10 (varint 10 t ++ [])).isOk := (isOk_readVarint_varint (by decide) (by omega) []).mpr ht
  rw [List.append_nil] at h
  exact ⟨Nat.zero_le _, rfl, h⟩

/-- A time of one byte has nothing after it, and a longer one starts with no
character of one byte. -/
theorem not_textInTime_one (t : Nat) : ¬ TextInTime 1 t := by
  intro ⟨_, hvalid, hrest⟩
  by_cases h₀ : t < 128
  · rw [varint_of_lt h₀] at hrest
    cases hrest
  · rw [varint_of_le (not_lt.mp h₀), List.take_succ_cons, List.take_zero, Utf8.not_valid_one (le_more_byte t)] at hvalid
    cases hvalid

theorem textInTime_two {t : Nat} (ht : t < 2 ^ 64) :
    TextInTime 2 t ↔ 2 ^ 14 ≤ t ∧ (66 ≤ t % 128 ∧ t % 128 < 96) ∧ t / 128 % 128 < 64 := by
  unfold TextInTime
  by_cases h₀ : t < 128
  · rw [varint_of_lt h₀]
    simp
    omega
  by_cases h₁ : t / 128 < 128
  · rw [varint_of_le (not_lt.mp h₀), varint_of_lt h₁]
    simp [not_isOk_readVarint_nil]
    omega
  · rw [varint_of_le (not_lt.mp h₀), varint_of_le (not_lt.mp h₁)]
    have hrest := isOk_readVarint_rest (k := 7) (q := t / 128 / 128) (by decide) (by omega)
    simp only [List.take_succ_cons, List.take_zero, List.drop_succ_cons, List.drop_zero, hrest, and_true,
      Utf8.valid_two (le_more_byte t), more_byte_toNat, List.length_cons]
    omega

theorem textInTime_three {t : Nat} (ht : t < 2 ^ 64) :
    TextInTime 3 t ↔ 2 ^ 21 ≤ t ∧ (96 ≤ t % 128 ∧ t % 128 < 112) ∧ t / 128 % 128 < 64 ∧ t / 128 / 128 % 128 < 64 ∧
      (t % 128 = 96 → 32 ≤ t / 128 % 128) ∧ (t % 128 = 109 → t / 128 % 128 < 32) := by
  unfold TextInTime
  by_cases h₀ : t < 128
  · rw [varint_of_lt h₀]
    simp
    omega
  by_cases h₁ : t / 128 < 128
  · rw [varint_of_le (not_lt.mp h₀), varint_of_lt h₁]
    simp
    omega
  by_cases h₂ : t / 128 / 128 < 128
  · -- the text would be the whole time
    rw [varint_of_le (not_lt.mp h₀), varint_of_le (not_lt.mp h₁), varint_of_lt h₂]
    simp [not_isOk_readVarint_nil]
    omega
  · rw [varint_of_le (not_lt.mp h₀), varint_of_le (not_lt.mp h₁), varint_of_le (not_lt.mp h₂)]
    have hrest := isOk_readVarint_rest (k := 6) (q := t / 128 / 128 / 128) (by decide) (by omega)
    simp only [List.take_succ_cons, List.take_zero, List.drop_succ_cons, List.drop_zero, hrest, and_true,
      Utf8.valid_three (le_more_byte t) (le_more_byte (t / 128 / 128)), more_byte_toNat, List.length_cons]
    omega

/-- The bytes of a receipt are a message's exactly if it looks like one. -/
theorem isOk_decodeDm_receipt (r : ReceiptPayload) : (decodeDm r.toAllocvec.val).isOk ↔ r.LooksLikeDm := by
  have hbytes : r.toAllocvec.val = MessageId.codec.enc r.messageId ++ (ConversationId.codec.enc r.conversationId ++
      (IdentityId.codec.enc r.recipientIdentity ++ (MachineId.codec.enc r.recipientMachine ++
        (varint 5 r.status.toFin ++ varint 10 r.timestampMs.toNat)))) := rfl
  have hfin : r.status.toFin.val < 128 := by omega
  have htime := r.timestampMs.toNat_lt
  have hstart : (decodeDm r.toAllocvec.val).isOk ↔ TextInTime r.status.toFin r.timestampMs.toNat := by
    rw [hbytes, decodeDm, isOk_mapError, isOk_fromBytes, DmSectorPayload.codec, isOk_iso, isOk_pair_enc, isOk_pair_enc,
      isOk_pair_enc, isOk_pair_enc, varint_of_lt hfin, List.singleton_append, isOk_text_time hfin]
    rfl
  rw [hstart]
  unfold ReceiptPayload.LooksLikeDm
  cases r.status with
  | queued => exact iff_of_true (textInTime_zero htime) trivial
  | sent => exact iff_of_false (not_textInTime_one _) not_false
  | delivered => exact textInTime_two htime
  | read => exact textInTime_three htime

/-! ## A message read as a receipt -/

/-- A message whose bytes are not those of a receipt: its length is no status,
or the bytes of its text and its time make too large a number together. -/
def DmSectorPayload.NoReceipt (p : DmSectorPayload) : Prop :=
  4 ≤ p.text.bytes.length ∨
    (∀ b ∈ p.text.bytes, 0x80 ≤ b) ∧ 2 ^ (64 - 7 * p.text.bytes.length) ≤ p.createdAtMs.toNat

theorem isOk_status_time {n : Nat} (hn : n < 2 ^ 64) (v : Bytes) :
    ((pair MessageStatus.codec u64).dec (varint 10 n ++ v)).isOk ↔ n < 4 ∧ (readVarint 1 10 v).isOk := by
  by_cases h : n < 4
  · have hwidth : varint 10 n = MessageStatus.codec.enc (.ofFin ⟨n, h⟩) := by
      have : (MessageStatus.ofFin ⟨n, h⟩).toFin.val = n := by
        rcases n with _ | _ | _ | _ | n
        · rfl
        · rfl
        · rfl
        · rfl
        · omega
      show varint 10 n = varint 5 (MessageStatus.ofFin ⟨n, h⟩).toFin.val
      rw [this, varint_of_lt (by omega), varint_of_lt (by omega)]
    rw [hwidth, isOk_pair_enc]
    simp only [h, true_and, u64, isOk_map]
  · simp only [h, false_and, iff_false, MessageStatus.codec, pair, iso, variant]
    cases hr : readVarint 15 5 (varint 10 n ++ v) with
    | error e => simp [Except.map, Except.isOk, Except.toBool]
    | ok q =>
      obtain ⟨i, r⟩ := q
      obtain ⟨rfl, -⟩ := readVarint_varint_eq (by omega) hr
      simp [h, Except.map, Except.isOk, Except.toBool]

/-- The bytes of a message are a receipt's unless `NoReceipt` says otherwise. -/
theorem isOk_decodeReceipt_dm (p : DmSectorPayload) : (decodeReceipt p.toAllocvec.val).isOk ↔ ¬ p.NoReceipt := by
  have hbytes : p.toAllocvec.val = MessageId.codec.enc p.messageId ++ (ConversationId.codec.enc p.conversationId ++
      (IdentityId.codec.enc p.senderIdentity ++ (MachineId.codec.enc p.senderMachine ++
        (varint 10 p.text.bytes.length ++ p.text.bytes ++ varint 10 p.createdAtMs.toNat)))) := rfl
  have hlen := p.text.len_lt
  have htime := p.createdAtMs.toNat_lt
  have hstart : (decodeReceipt p.toAllocvec.val).isOk ↔ p.text.bytes.length < 4 ∧
      (readVarint 1 10 (p.text.bytes ++ varint 10 p.createdAtMs.toNat)).isOk := by
    rw [hbytes, decodeReceipt, isOk_mapError, isOk_fromBytes, ReceiptPayload.codec, isOk_iso, isOk_pair_enc,
      isOk_pair_enc, isOk_pair_enc, isOk_pair_enc, List.append_assoc, isOk_status_time (by omega)]
  rw [hstart, DmSectorPayload.NoReceipt, not_or, not_le, not_and, not_le]
  refine and_congr_right fun hshort => ?_
  by_cases hhigh : ∀ b ∈ p.text.bytes, 0x80 ≤ b
  · -- the text leads into the time
    have hk : 10 = p.text.bytes.length + (9 - p.text.bytes.length + 1) := by omega
    have hpow : 128 ^ (9 - p.text.bytes.length) * ((1 : UInt8).toNat + 1) = 2 ^ (64 - 7 * p.text.bytes.length) := by
      generalize p.text.bytes.length = n at hshort
      have hn : n = 0 ∨ n = 1 ∨ n = 2 ∨ n = 3 := by omega
      rcases hn with rfl | rfl | rfl | rfl <;> rfl
    have h : (readVarint 1 (9 - p.text.bytes.length + 1) (varint 10 p.createdAtMs.toNat ++ [])).isOk ↔ _ :=
      isOk_readVarint_varint (by decide) (by omega) []
    rw [List.append_nil, hpow] at h
    nth_rewrite 1 [hk]
    rw [isOk_readVarint_high hhigh, h]
    exact ⟨fun h _ => h, fun h => h hhigh⟩
  · -- a byte of the text ends the number
    have hlow : ∃ b ∈ p.text.bytes, b < 0x80 := by simpa using hhigh
    have h : (readVarint 1 10 (p.text.bytes ++ varint 10 p.createdAtMs.toNat)).isOk :=
      isOk_readVarint_low hlow (by omega)
    exact ⟨fun _ h => absurd h hhigh, fun _ => h⟩

/-! ## The two kinds apart -/

/-- `process_inbound_dm` refuses the bytes and changes nothing, whoever
receives them. -/
def RefusedInbound (bytes : Bytes) : Prop :=
  ∀ (blake3 : Bytes → Arr 32) (r : DmReceiver) (db : ZeroDb) (nowMs receiptMs : UInt64) (sectorId : SectorId)
    (enqueuedMs : UInt64), ∃ e,
      db.run (r.processInboundDm blake3 bytes nowMs receiptMs sectorId enqueuedMs) = (.error e, db)

theorem refusedInbound_iff (bytes : Bytes) : RefusedInbound bytes ↔ ¬ (decodeDm bytes).isOk := by
  cases hd : decodeDm bytes with
  | error e =>
    refine ⟨fun _ => by simp [Except.isOk, Except.toBool], fun _ blake3 r db now receiptMs sectorId enqueuedMs => ?_⟩
    exact ⟨e, run_inbound_error blake3 db r hd now receiptMs sectorId enqueuedMs⟩
  | ok p =>
    refine ⟨fun h => ?_, fun h => absurd rfl h⟩
    -- bytes that decode are stored, here in an empty database
    exfalso
    let r : DmReceiver := ⟨⟨p.senderIdentity, p.senderMachine, ⟨p.senderIdentity⟩⟩, p.senderIdentity, p.senderMachine⟩
    obtain ⟨e, hrun⟩ := h (fun _ => Arr.fill 32 0) r ZeroDb.empty 0 0 ⟨Arr.fill 16 0⟩ 0
    have hstored := (update_inbound (fun _ => Arr.fill 32 0) ZeroDb.empty r hd 0 0 ⟨Arr.fill 16 0⟩ 0).messages
      p.conversationId p.messageId
    rw [hrun] at hstored
    simp [DmSectorPayload.toMessage, messageAt, ZeroDb.get, ZeroDb.empty] at hstored

/-- **When the two kinds are told apart.** The bytes of a receipt are refused
as a message exactly if they do not look like one, and the bytes of a message
are refused as a receipt exactly if `NoReceipt` holds of it. -/
theorem wire_separation_iff (r : ReceiptPayload) (p : DmSectorPayload) :
    (RefusedInbound r.toAllocvec.val ↔ ¬ r.LooksLikeDm) ∧
      ((∃ e, decodeReceipt p.toAllocvec.val = .error e) ↔ p.NoReceipt) := by
  refine ⟨?_, ?_⟩
  · rw [refusedInbound_iff, isOk_decodeDm_receipt]
  · have h := isOk_decodeReceipt_dm p
    rw [← not_iff_not, not_exists, ← h]
    cases decodeReceipt p.toAllocvec.val with
    | error e => simp [Except.isOk, Except.toBool]
    | ok r => simp [Except.isOk, Except.toBool]

/-- A delivered receipt of November 2023 is stored as a message, and an empty
message is a receipt. -/
theorem payloads_read_as_each_other :
    let i : IdentityId := ⟨Arr.fill 16 1⟩
    let m : MachineId := ⟨Arr.fill 16 1⟩
    let receipt := buildDeliveredReceipt ⟨Arr.fill 16 7⟩ ⟨Arr.fill 32 9⟩ ⟨Arr.fill 16 2⟩ ⟨Arr.fill 16 3⟩ 1700000006210
    let message : DmSectorPayload := ⟨⟨Arr.fill 16 7⟩, ⟨Arr.fill 32 9⟩, ⟨Arr.fill 16 2⟩, ⟨Arr.fill 16 3⟩, Str.empty, 5⟩
    let after := ZeroDb.empty.run (DmReceiver.processInboundDm (fun _ => Arr.fill 32 0) ⟨⟨i, m, ⟨i⟩⟩, i, m⟩
      receipt.toAllocvec.val 10 10 ⟨Arr.fill 16 1⟩ 10)
    (after.1 = .ok receipt.messageId ∧ (messageAt after.2 receipt.conversationId receipt.messageId).isSome) ∧
      (decodeReceipt message.toAllocvec.val).isOk := by
  decide +kernel

end ZeroSdk.Dm
