/-
Which sector ids share a key. Both names of a scope stand behind their
lengths, but a length is written modulo 2^16, so an identity id that is a
multiple of 2^16 bytes longer has the same two bytes in front. What it is
longer by must then be found in the other scope's machine id, with that
machine id's own length in front of it (`Shifted`). `makeSectorKey_eq_iff`
says that this is the only way for two scopes to meet, and
`nul_scopes_share_keys` is such a pair.
-/
import ZeroSdk.Storage.Sectors

namespace ZeroSdk

/-- The second scope has the frame of the first read further on: its identity
id goes on through the first one's machine length and a part `t` of the
machine id, and the rest of that machine id is its own machine length and
machine id. -/
def Shifted (i m i' m' : Str) : Prop :=
  ∃ t : Bytes, (2 + t.length) % 2 ^ 16 = 0 ∧ i'.bytes = i.bytes ++ (lenBytes m ++ t) ∧
    m.bytes = t ++ (lenBytes m' ++ m'.bytes)

/-- One id in two different scopes, the one shifted against the other. -/
def Collide (i m : Str) (id : SectorId) (i' m' : Str) (id' : SectorId) : Prop :=
  id = id' ∧ (Shifted i m i' m' ∨ Shifted i' m' i m)

theorem Shifted.length_lt {i m i' m' : Str} (h : Shifted i m i' m') :
    i.bytes.length + 2 ^ 16 ≤ i'.bytes.length ∧ 2 ^ 16 ≤ m.bytes.length := by
  obtain ⟨t, ht, hi, hm⟩ := h
  have hilen := congrArg List.length hi
  have hmlen := congrArg List.length hm
  simp only [List.length_append, lenBytes_length] at hilen hmlen
  omega

/-- A shifted scope has the same prefix. -/
theorem Shifted.makeScopePrefix_eq {i m i' m' : Str} (h : Shifted i m i' m') :
    makeScopePrefix i m = makeScopePrefix i' m' := by
  obtain ⟨t, ht, hi, hm⟩ := h
  have hlen : lenBytes i' = lenBytes i := by
    have hmod : i'.bytes.length % 2 ^ 16 = i.bytes.length % 2 ^ 16 := by
      rw [hi]
      simp only [List.length_append, lenBytes_length]
      omega
    rw [lenBytes, hmod, lenBytes]
  rw [makeScopePrefix, makeScopePrefix, hlen, hi, hm]
  simp only [List.append_assoc]

/-- Two scopes with one prefix, the first with the shorter identity id. -/
theorem shifted_of_makeScopePrefix_eq {i m i' m' : Str} (h : makeScopePrefix i m = makeScopePrefix i' m')
    (hlt : i.bytes.length < i'.bytes.length) : Shifted i m i' m' := by
  simp only [makeScopePrefix, List.append_assoc] at h
  obtain ⟨hlen, h⟩ := List.append_inj h ((lenBytes_length i).trans (lenBytes_length i').symm)
  have hmod := Bytes.be_inj (by omega) (by omega) hlen
  -- what the longer identity id has more
  rcases List.append_eq_append_iff.mp h with ⟨r, hi, hrest⟩ | ⟨r, hi, -⟩
  · have hrlen := congrArg List.length hi
    rw [List.length_append] at hrlen
    rcases List.append_eq_append_iff.mp hrest with ⟨t, hr, hm⟩ | ⟨t, hl, -⟩
    · have hrt := congrArg List.length hr
      rw [List.length_append, lenBytes_length] at hrt
      exact ⟨t, by omega, by rw [hi, hr], hm⟩
    · have hrt := congrArg List.length hl
      rw [List.length_append, lenBytes_length] at hrt
      omega
  · have hilen := congrArg List.length hi
    rw [List.length_append] at hilen
    omega

/-- Two scopes with one prefix and identity ids of one length are one. -/
theorem makeScopePrefix_inj {i m i' m' : Str} (h : makeScopePrefix i m = makeScopePrefix i' m')
    (hlen : i.bytes.length = i'.bytes.length) : i = i' ∧ m = m' := by
  simp only [makeScopePrefix, List.append_assoc] at h
  obtain ⟨-, h⟩ := List.append_inj h ((lenBytes_length i).trans (lenBytes_length i').symm)
  obtain ⟨hi, h⟩ := List.append_inj h hlen
  obtain ⟨-, hm⟩ := List.append_inj h ((lenBytes_length m).trans (lenBytes_length m').symm)
  exact ⟨Str.ext' hi, Str.ext' hm⟩

theorem makeSectorKey_eq (i m : Str) (id : SectorId) : makeSectorKey i m id = makeScopePrefix i m ++ id.bytes.val := rfl

theorem makeSectorKey_eq_iff {i m i' m' : Str} {id id' : SectorId} :
    makeSectorKey i m id = makeSectorKey i' m' id' ↔ (i = i' ∧ m = m' ∧ id = id') ∨ Collide i m id i' m' id' := by
  rw [makeSectorKey_eq, makeSectorKey_eq]
  constructor
  · intro h
    obtain ⟨hscope, hid⟩ := List.append_inj' h (id.bytes.property.trans id'.bytes.property.symm)
    have hid : id = id' := by
      cases id; cases id'
      exact congrArg _ (Subtype.ext hid)
    rcases lt_trichotomy i.bytes.length i'.bytes.length with hlt | heq | hgt
    · exact .inr ⟨hid, .inl (shifted_of_makeScopePrefix_eq hscope hlt)⟩
    · obtain ⟨hi, hm⟩ := makeScopePrefix_inj hscope heq
      exact .inl ⟨hi, hm, hid⟩
    · exact .inr ⟨hid, .inr (shifted_of_makeScopePrefix_eq hscope.symm hgt)⟩
  · rintro (⟨rfl, rfl, rfl⟩ | ⟨rfl, h | h⟩)
    · rfl
    · rw [h.makeScopePrefix_eq]
    · rw [h.makeScopePrefix_eq]

theorem Collide.ne {i m i' m' : Str} {id id' : SectorId} (h : Collide i m id i' m' id') :
    ¬ (i = i' ∧ m = m' ∧ id = id') := by
  rintro ⟨rfl, rfl, -⟩
  rcases h.2 with h | h
  · have := h.length_lt.1
    omega
  · have := h.length_lt.1
    omega

/-! ## What a put does to other scopes -/

theorem run_getSector (db : ZeroDb) (i m : Str) (id : SectorId) :
    (db.run (ZeroDb.getSector i m id)).1 =
      match db.get .sectors (makeSectorKey i m id) with
      | some bytes => (decodeSector bytes).map some
      | none => .ok none := by
  simp only [ZeroDb.getSector, Prog.run_bind, run_getRaw]
  cases db.get .sectors (makeSectorKey i m id) with
  | none => rfl
  | some bytes =>
    simp only [Prog.run_bind, Prog.run_lift]
    cases decodeSector bytes <;> rfl

theorem run_getSector_put (db : ZeroDb) (s : Sector) (i m : Str) (id : SectorId) :
    ((db.run (ZeroDb.putSector s)).2.run (ZeroDb.getSector i m id)).1 =
      if makeSectorKey i m id = makeSectorKey s.identityId s.machineId s.id then .ok (some s)
      else (db.run (ZeroDb.getSector i m id)).1 := by
  rw [run_getSector, run_getSector, ZeroDb.putSector, run_putRaw]
  by_cases h : makeSectorKey i m id = makeSectorKey s.identityId s.machineId s.id
  · rw [if_pos h, h, ZeroDb.get_put_self]
    simp only [SectorMap.decodeSector_encodeSector, Except.map]
  · rw [if_neg h, ZeroDb.get_put_of_ne _ _ _ h]

/-- The two scoped ids have different keys unless they are the same, and what
is put under the one is not read under the other. -/
structure KeptApart (i m : Str) (id : SectorId) (i' m' : Str) (id' : SectorId) : Prop where
  key : makeSectorKey i m id = makeSectorKey i' m' id' → i = i' ∧ m = m' ∧ id = id'
  put : ¬ (i = i' ∧ m = m' ∧ id = id') → ∀ (db : ZeroDb) (s : Sector),
    s.identityId = i' ∧ s.machineId = m' ∧ s.id = id' →
      ((db.run (ZeroDb.putSector s)).2.run (ZeroDb.getSector i m id)).1 = (db.run (ZeroDb.getSector i m id)).1

/-- **When sector keys are injective.** For names of any length, two scoped ids
are kept apart exactly if they are not one id in two scopes that are shifted
against each other. -/
theorem keptApart_iff (i m : Str) (id : SectorId) (i' m' : Str) (id' : SectorId) :
    KeptApart i m id i' m' id' ↔ ¬ Collide i m id i' m' id' := by
  constructor
  · intro h hcollide
    exact hcollide.ne (h.key (makeSectorKey_eq_iff.mpr (.inr hcollide)))
  · intro h
    have hkey : makeSectorKey i m id = makeSectorKey i' m' id' → i = i' ∧ m = m' ∧ id = id' := by
      intro heq
      exact (makeSectorKey_eq_iff.mp heq).resolve_right h
    refine ⟨hkey, fun hne db s hs => ?_⟩
    obtain ⟨rfl, rfl, rfl⟩ := hs
    rw [run_getSector_put, if_neg fun heq => hne (hkey heq)]

/-! ## A collision -/

theorem valid_nuls (n : Nat) : Utf8.valid (List.replicate n 0) = true := by
  induction n with
  | zero => rfl
  | succ n ih => rwa [List.replicate_succ, Utf8.valid.eq_def]

/-- `n` NUL characters. -/
def nuls (n : Nat) (h : n < 2 ^ 63) : Str where
  bytes := List.replicate n 0
  valid := valid_nuls n
  len_lt := by rwa [List.length_replicate]

/-- An empty identity id with a machine id of 65536 NULs has the keys of an
identity id of 65536 NULs with an empty machine id: a sector put in the second
scope is what the first one reads. -/
theorem nul_scopes_share_keys :
    let long := nuls 65536 (by decide)
    let id : SectorId := ⟨Arr.fill 16 7⟩
    let sector : Sector := ⟨id, Str.empty, long, Str.empty, 5, Vec.empty, none⟩
    makeSectorKey Str.empty long id = makeSectorKey long Str.empty id ∧ Str.empty ≠ long ∧
      (ZeroDb.empty.run (ZeroDb.getSector Str.empty long id)).1 = .ok none ∧
      ((ZeroDb.empty.run (ZeroDb.putSector sector)).2.run (ZeroDb.getSector Str.empty long id)).1 = .ok (some sector) := by
  intro long id sector
  have hbytes : long.bytes = List.replicate 65536 0 := rfl
  have hne : Str.empty ≠ long := by
    intro h
    have hlen : 0 = long.bytes.length := congrArg (·.bytes.length) h
    rw [hbytes, List.length_replicate] at hlen
    omega
  have hshift : Shifted Str.empty long long Str.empty := by
    have hlen : lenBytes long = List.replicate 2 0 := by
      rw [lenBytes, hbytes, List.length_replicate]
      rfl
    -- the length as a variable: nothing counts the list
    have hwraps : ∀ n, n = 65534 → (2 + n) % 2 ^ 16 = 0 := by
      intro n hn
      omega
    refine ⟨List.replicate 65534 0, hwraps _ List.length_replicate, ?_, ?_⟩
    · rw [hlen, hbytes, List.replicate_append_replicate]
      rfl
    · have hempty : lenBytes Str.empty ++ Str.empty.bytes = List.replicate 2 0 := rfl
      rw [hempty, hbytes, List.replicate_append_replicate]
  have hkey : makeSectorKey Str.empty long id = makeSectorKey long Str.empty id :=
    makeSectorKey_eq_iff.mpr (.inr ⟨rfl, .inl hshift⟩)
  refine ⟨hkey, hne, ?_, ?_⟩
  · rw [run_getSector]
    rfl
  · rw [run_getSector_put, if_pos hkey]

end ZeroSdk
