/-
How much of the bytes of a direct message or a receipt counts. Nothing frames
the two payloads on the wire: a sector is read from its start, and what is
left over is not looked at.

`wire_framed`: bytes added behind a sector are no matter, and a sector that
is cut short anywhere is refused for its length, with the database as it was.
-/
import ZeroSdk.Dm.Chains
import ZeroSdk.Lib.Framing

namespace ZeroSdk.Dm
open Postcard

/-- The error of a payload that is cut short. -/
def cutShort : DmError := .codec (.inl .unexpectedEnd)

theorem incremental_dm : Incremental DmSectorPayload.codec.dec := by
  refine incremental_iso ?_ _ _ _
  refine incremental_pair (incremental_iso (incremental_array 16) _ _ _) ?_
  refine incremental_pair (incremental_iso (incremental_array 32) _ _ _) ?_
  refine incremental_pair (incremental_iso (incremental_array 16) _ _ _) ?_
  refine incremental_pair (incremental_iso (incremental_array 16) _ _ _) ?_
  exact incremental_pair incremental_str incremental_u64

theorem incremental_receipt : Incremental ReceiptPayload.codec.dec := by
  refine incremental_iso ?_ _ _ _
  refine incremental_pair (incremental_iso (incremental_array 16) _ _ _) ?_
  refine incremental_pair (incremental_iso (incremental_array 32) _ _ _) ?_
  refine incremental_pair (incremental_iso (incremental_array 16) _ _ _) ?_
  refine incremental_pair (incremental_iso (incremental_array 16) _ _ _) ?_
  exact incremental_pair (incremental_iso (incremental_variant 4 four_le) _ _ _) incremental_u64

/-- A decoder reads a payload from the start of its bytes. -/
structure Framed {α : Type} (decode : Bytes → Except DmError α) (toAllocvec : α → Vec UInt8) : Prop where
  added : ∀ bytes more, decode bytes = .error cutShort ∨ decode (bytes ++ more) = decode bytes
  cut : ∀ payload bytes rest, (toAllocvec payload).val = bytes ++ rest → rest ≠ [] → decode bytes = .error cutShort

theorem framed_of_incremental {α : Type} {c : Codec α} (h : Incremental c.dec) {toAllocvec : α → Vec UInt8}
    (henc : ∀ a, (toAllocvec a).val = c.enc a) :
    Framed (fun bytes => (fromBytes c bytes).mapError fun e => .codec (.inl e)) toAllocvec := by
  refine ⟨fun bytes more => ?_, fun payload bytes rest hbytes hrest => ?_⟩
  · rcases h.fromBytes_append bytes more with hend | hsame
    · simp only [hend]
      exact .inl rfl
    · simp only [hsame]
      exact .inr trivial
  · have hcut : fromBytes c bytes = .error .unexpectedEnd := by
      rw [fromBytes, h.dec_of_append ((henc payload).symm.trans hbytes) hrest]
      rfl
    simp only [hcut]
    rfl

theorem framed_dm : Framed decodeDm DmSectorPayload.toAllocvec := framed_of_incremental incremental_dm fun _ => rfl

/-- **Payloads are framed by what is in them.** `decode_receipt` ignores
what follows a receipt and refuses one that is cut short, and
`process_inbound_dm` does the same with a sector: bytes added to one it does
not find too short make no difference to what it returns and stores, and on a
sector that is cut short it changes nothing. -/
theorem wire_framed (blake3 : Bytes → Arr 32) (r : DmReceiver) (db : ZeroDb) (now receiptMs : UInt64) (sectorId : SectorId)
    (enqueuedMs : UInt64) :
    let inbound := fun bytes => db.run (r.processInboundDm blake3 bytes now receiptMs sectorId enqueuedMs)
    Framed decodeReceipt ReceiptPayload.toAllocvec ∧
      (∀ bytes more, inbound bytes = (.error cutShort, db) ∨ inbound (bytes ++ more) = inbound bytes) ∧
      ∀ payload : DmSectorPayload, ∀ bytes rest, payload.toAllocvec.val = bytes ++ rest → rest ≠ [] →
        inbound bytes = (.error cutShort, db) := by
  intro inbound
  refine ⟨framed_of_incremental incremental_receipt fun _ => rfl, fun bytes more => ?_, fun payload bytes rest hbytes hrest => ?_⟩
  · rcases framed_dm.added bytes more with hcut | hsame
    · exact .inl (run_inbound_error blake3 db r hcut now receiptMs sectorId enqueuedMs)
    · refine .inr ?_
      simp only [inbound, DmReceiver.processInboundDm, hsame]
  · exact run_inbound_error blake3 db r (framed_dm.cut payload bytes rest hbytes hrest) now receiptMs sectorId enqueuedMs

end ZeroSdk.Dm
