/-
Is the encoded header deterministic CBOR? `encode` writes its six keys in the
order of their texts, which it calls the lexicographic order of RFC 8949,
section 4.2.1. The order there is that of the encoded keys, and these start
with their length: `sector_id` (nine letters) comes before `schema_tag` (ten),
and both before `prev_sector_id`. So the bytes are of the short form the rule
asks for, but in no header in the right order (`encode_not_deterministic`).
-/
import ZeroSdk.Crypto.Aad
import ZeroSdk.Lib.CborOrder

namespace ZeroSdk.Crypto
open Cbor (ShortForm Deterministic encMap sortKeys)

theorem MessageAad.keys_eq (a : MessageAad) :
    a.entries.map (·.1.enc) = Field.all.map fun f => (Cbor.Scalar.text f.key).enc := rfl

theorem MessageAad.entries_length (a : MessageAad) : a.entries.length < 2 ^ 64 := show 6 < 2 ^ 64 by decide

theorem MessageAad.keys_nodup (a : MessageAad) : (a.entries.map (·.1.enc)).Nodup := by
  rw [a.keys_eq]
  decide

/-- `prev_sector_id` stands before `schema_tag` and is longer. -/
theorem MessageAad.keys_not_ascending (a : MessageAad) : ¬ (a.entries.map (·.1.enc)).Pairwise (· < ·) := by
  rw [a.keys_eq]
  decide

theorem MessageAad.sortKeys_entries (a : MessageAad) :
    (sortKeys a.entries).map Prod.fst =
      [Field.epoch, .sectorId, .schemaTag, .prevSectorId, .senderMachine, .senderIdentity].map fun f => .text f.key := rfl

/-- **The encoded header is never deterministic.** For every header, `encode`
writes definite lengths, shortest heads and no key twice, but not the order of
the encoded keys: the one deterministic encoding of the same map is that of
its sorted entries, another byte string. -/
theorem encode_not_deterministic (a : MessageAad) :
    ∃ b, a.encode = .ok b ∧ ShortForm a.entries b ∧ ¬ Deterministic a.entries b ∧
      ∀ b', Deterministic a.entries b' ↔ b' = encMap (sortKeys a.entries) := by
  have hnot : ¬ Deterministic a.entries (encMap a.entries) := by
    rw [Cbor.deterministic_encMap_iff a.entries_length]
    exact a.keys_not_ascending
  have hsorted := Cbor.deterministic_sortKeys a.entries_length a.keys_nodup
  refine ⟨encMap a.entries, rfl, Cbor.shortForm_encMap a.entries_length a.keys_nodup, hnot, fun b' => ?_⟩
  constructor
  · intro h
    exact Cbor.Deterministic.unique a.entries_length h hsorted
  · rintro rfl
    exact hsorted

/-- The first test vector's header. -/
def katNoPrev : MessageAad := ⟨⟨1⟩, ⟨Arr.fill 16 1⟩, ⟨Arr.fill 16 2⟩, ⟨Arr.fill 16 3⟩, ⟨42⟩, none⟩

/-- Behind `epoch` the vector goes on with `prev_sector_id` (`0x6e`), the
deterministic encoding with `sector_id` (`0x69`). -/
theorem kat_not_deterministic :
    katNoPrev.encode = .ok (encMap katNoPrev.entries) ∧ ¬ Deterministic katNoPrev.entries (encMap katNoPrev.entries) ∧
      (encMap katNoPrev.entries)[9]? = some 0x6e ∧ (encMap (sortKeys katNoPrev.entries))[9]? = some 0x69 := by
  refine ⟨rfl, ?_, by decide, by decide⟩
  rw [Cbor.deterministic_encMap_iff katNoPrev.entries_length]
  exact katNoPrev.keys_not_ascending

end ZeroSdk.Crypto
