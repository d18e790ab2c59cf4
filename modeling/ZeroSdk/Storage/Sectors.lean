/-
Sectors in `CF_SECTORS`, under identity, machine and sector id in one flat
key: the two names with two-byte lengths before them, then the id.

For names that fit their length, `iter_chain`'s prefix is a prefix of the
keys of its own scope alone (`makeScopePrefix_isPrefix_iff`), so the sectors
refine a map from identity, machine and id to a sector
(`sectors_refine_map`). The scope that is asked for may have names of any
length: a length that does not fit is cut, but the key then runs on past
every stored one, or would need the byte `0xFF` in a name.
-/
import Mathlib.Data.List.Induction
import ZeroSdk.Storage.Db

namespace ZeroSdk
open Postcard (Codec)

/-- Canonical sector as stored on disk. -/
structure Sector where
  id : SectorId
  kind : Str
  identityId : Str
  machineId : Str
  createdAt : UInt64
  payload : Vec UInt8
  prev : Option SectorId
  deriving DecidableEq

open Postcard in
def Sector.codec : Codec Sector :=
  iso (pair SectorId.codec (pair str (pair str (pair str (pair u64 (pair (vec u8) (option SectorId.codec)))))))
    (fun s => (s.id, s.kind, s.identityId, s.machineId, s.createdAt, s.payload, s.prev))
    (fun (i, k, d, m, c, p, r) => ⟨i, k, d, m, c, p, r⟩) fun _ => rfl

/-- `encode_sector`; serialising to a growing vector does not fail. -/
def encodeSector (sector : Sector) : Bytes := Sector.codec.enc sector

def decodeSector (b : Bytes) : Except StorageError Sector := (Postcard.fromBytes Sector.codec b).mapError .codec

/-! ## Keys -/

/-- `len() as u16`, in big-endian. -/
def lenBytes (s : Str) : Bytes := Bytes.be 2 (s.bytes.length % 2 ^ 16)

def makeScopePrefix (identityId machineId : Str) : Bytes :=
  lenBytes identityId ++ identityId.bytes ++ lenBytes machineId ++ machineId.bytes

def makeSectorKey (identityId machineId : Str) (sectorId : SectorId) : Bytes :=
  lenBytes identityId ++ identityId.bytes ++ lenBytes machineId ++ machineId.bytes ++ sectorId.bytes.val

/-! ## Operations -/

namespace ZeroDb

def putSector (sector : Sector) : DbProg StorageError Unit :=
  putRaw .sectors (makeSectorKey sector.identityId sector.machineId sector.id) (encodeSector sector)

def getSector (identityId machineId : Str) (sectorId : SectorId) : DbProg StorageError (Option Sector) := do
  match ← getRaw .sectors (makeSectorKey identityId machineId sectorId) with
  | some bytes => (Prog.lift (decodeSector bytes) : DbProg StorageError Sector) >>= fun sector => pure (some sector)
  | none => pure none

def deleteSector (identityId machineId : Str) (sectorId : SectorId) : DbProg StorageError Unit :=
  deleteRaw .sectors (makeSectorKey identityId machineId sectorId)

/-- The loop of `iter_chain`: stops at the first key without the prefix. -/
def iterChainLoop (pre : Bytes) : List (Except RocksError (Bytes × Bytes)) → Except StorageError (List Sector)
  | [] => .ok []
  | .error e :: _ => .error (.rocks e)
  | .ok (k, v) :: items =>
    if !pre.isPrefixOf k then .ok []
    else match decodeSector v with
      | .error e => .error e
      | .ok sector => (iterChainLoop pre items).map (sector :: ·)

/-- `iter_chain`: the sectors of a scope by ascending id. -/
def iterChain (identityId machineId : Str) : DbProg StorageError (List Sector) := do
  let pre := makeScopePrefix identityId machineId
  let items ← iteratorCf .sectors (.forward pre)
  Prog.lift (iterChainLoop pre items)

end ZeroDb

/-! ## Scopes -/

/-- A name whose length two bytes can hold. -/
def Short (s : Str) : Prop := s.bytes.length < 2 ^ 16

theorem lenBytes_length (s : Str) : (lenBytes s).length = 2 := Bytes.be_length _ _

theorem lenBytes_inj {s t : Str} (ht : Short t) (h : lenBytes s = lenBytes t) :
    s.bytes.length % 2 ^ 16 = t.bytes.length := by
  unfold Short at ht
  have hlen := Bytes.be_inj (by omega) (by omega) h
  rwa [Nat.mod_eq_of_lt ht] at hlen

/-- A name that is too long runs on into the length of the machine id. If the
key is long enough for that, this length is `0xFF..`, which no name has. -/
theorem no_long_name {i i' : Str} {rest m t : Bytes} (hm : m.length < 2 ^ 16) (ht : t.length = 16)
    (hlong : i'.bytes.length + 2 ^ 16 ≤ i.bytes.length) :
    ¬ i.bytes ++ rest <+: i'.bytes ++ (Bytes.be 2 m.length ++ (m ++ t)) := by
  intro hpre
  have hcut : i'.bytes <+: i.bytes :=
    List.prefix_of_prefix_length_le (List.prefix_append _ _) ((List.prefix_append _ _).trans hpre) (by omega)
  obtain ⟨r, hr⟩ := hcut
  rw [← hr, List.append_assoc, List.prefix_append_right_inj] at hpre
  have hlen := congrArg List.length hr
  have hle := hpre.length_le
  simp only [List.length_append, Bytes.be_length, ht] at hlen hle
  have hbe : Bytes.be 2 m.length = [0xFF, (m.length % 256).toUInt8] := by
    have hhigh : m.length / 256 % 256 = 255 := by omega
    simp only [Bytes.be, hhigh, List.nil_append, List.singleton_append]
    rfl
  rw [hbe] at hpre
  cases r with
  | nil =>
    rw [List.length_nil] at hlen
    omega
  | cons b r =>
    rw [List.cons_append, List.cons_append, List.cons_prefix_cons] at hpre
    have hb : b ∈ i.bytes := hr ▸ List.mem_append_right _ List.mem_cons_self
    exact absurd (Utf8.valid_lt i.valid b hb) (by rw [hpre.1]; decide)

/-- The prefix of a scope is a prefix of the keys of this scope alone, where
the stored names are short. -/
theorem makeScopePrefix_isPrefix_iff {i m i' m' : Str} {id : SectorId} (hi : Short i') (hm : Short m') :
    makeScopePrefix i m <+: makeSectorKey i' m' id ↔ i = i' ∧ m = m' := by
  constructor
  · intro ⟨t, ht⟩
    simp only [makeScopePrefix, makeSectorKey, List.append_assoc] at ht
    obtain ⟨hlen, ht⟩ := List.append_inj ht ((lenBytes_length i).trans (lenBytes_length i').symm)
    have hilen := lenBytes_inj hi hlen
    have hmlen' : lenBytes m' = Bytes.be 2 m'.bytes.length := by rw [lenBytes, Nat.mod_eq_of_lt hm]
    by_cases hlong : i'.bytes.length + 2 ^ 16 ≤ i.bytes.length
    · rw [hmlen'] at ht
      exact absurd ⟨_, (by rw [List.append_assoc]; exact ht)⟩ (no_long_name hm id.bytes.property hlong)
    · have hieq : i.bytes.length = i'.bytes.length := by omega
      obtain ⟨hib, ht⟩ := List.append_inj ht hieq
      obtain ⟨hlen, ht⟩ := List.append_inj ht ((lenBytes_length m).trans (lenBytes_length m').symm)
      have hmlen := lenBytes_inj hm hlen
      -- a machine id that is too long does not fit before the end of the key
      have hle := congrArg List.length ht
      simp only [List.length_append, id.bytes.property] at hle
      have hmeq : m.bytes.length = m'.bytes.length := by omega
      exact ⟨Str.ext' hib, Str.ext' (List.append_inj ht hmeq).1⟩
  · rintro ⟨rfl, rfl⟩
    exact List.prefix_append _ _

theorem makeSectorKey_inj {i m i' m' : Str} {id id' : SectorId} (hi : Short i') (hm : Short m')
    (h : makeSectorKey i m id = makeSectorKey i' m' id') : i = i' ∧ m = m' ∧ id = id' := by
  have hpre : makeScopePrefix i m <+: makeSectorKey i' m' id' := h ▸ List.prefix_append _ _
  obtain ⟨rfl, rfl⟩ := (makeScopePrefix_isPrefix_iff hi hm).mp hpre
  have hid := List.append_cancel_left h
  cases id; cases id'
  exact ⟨rfl, rfl, by simpa [Subtype.ext_iff] using hid⟩

/-- Keys of one scope are ordered by id. -/
theorem makeSectorKey_lt_iff {i m : Str} {id id' : SectorId} :
    makeSectorKey i m id < makeSectorKey i m id' ↔ id < id' := Bytes.append_left_lt_iff

/-! ## The map -/

/-- The sector of each identity, machine and id. -/
abbrev SectorMap := Str → Str → SectorId → Option Sector

inductive SectorOp
  | put (sector : Sector)
  | delete (identityId machineId : Str) (sectorId : SectorId)

/-- The database after the call. -/
def SectorOp.run (db : ZeroDb) : SectorOp → ZeroDb
  | .put sector => (db.run (ZeroDb.putSector sector)).2
  | .delete i m id => (db.run (ZeroDb.deleteSector i m id)).2

def runSectorOps (db : ZeroDb) (ops : List SectorOp) : ZeroDb := ops.foldl SectorOp.run db

def SectorMap.step (map : SectorMap) : SectorOp → SectorMap
  | .put sector => fun i m id =>
    if sector.identityId = i ∧ sector.machineId = m ∧ sector.id = id then some sector else map i m id
  | .delete i' m' id' => fun i m id => if i' = i ∧ m' = m ∧ id' = id then none else map i m id

/-- The sector last put under a scope and id, unless it was deleted since. -/
def lastPut (ops : List SectorOp) : SectorMap := ops.foldl SectorMap.step fun _ _ _ => none

/-- The names of the sectors put fit their two-byte lengths. -/
def SectorOp.Fits : SectorOp → Prop
  | .put sector => Short sector.identityId ∧ Short sector.machineId
  | .delete _ _ _ => True

/-- The key and the value of a sector. -/
def Sector.pair (s : Sector) : Bytes × Bytes := (makeSectorKey s.identityId s.machineId s.id, encodeSector s)

/-- The stored pairs are the sectors of the map. -/
structure SectorMap.Holds (db : ZeroDb) (map : SectorMap) : Prop where
  stored : ∀ k v, db.get .sectors k = some v → ∃ s : Sector, map s.identityId s.machineId s.id = some s ∧ s.pair = (k, v)
  content : ∀ i m id s, map i m id = some s →
    (s.identityId = i ∧ s.machineId = m ∧ s.id = id) ∧ (Short i ∧ Short m) ∧ db.get .sectors s.pair.1 = some s.pair.2

namespace SectorMap
variable {db : ZeroDb} {map : SectorMap}

theorem Holds.get_key (h : Holds db map) {i m : Str} {id : SectorId} {v : Bytes}
    (hv : db.get .sectors (makeSectorKey i m id) = some v) : ∃ s, map i m id = some s ∧ v = encodeSector s := by
  obtain ⟨s, hs, hp⟩ := h.stored _ v hv
  obtain ⟨-, ⟨hi, hm⟩, -⟩ := h.content _ _ _ s hs
  obtain ⟨hk, hval⟩ := Prod.mk.inj hp
  obtain ⟨rfl, rfl, rfl⟩ := makeSectorKey_inj hi hm hk.symm
  exact ⟨s, hs, hval.symm⟩

theorem Holds.put (h : Holds db map) {s : Sector} (hi : Short s.identityId) (hm : Short s.machineId) :
    Holds (db.put .sectors s.pair.1 s.pair.2) (map.step (.put s)) := by
  constructor
  · intro k v hv
    by_cases hk : k = s.pair.1
    · subst hk
      rw [ZeroDb.get_put_self] at hv
      cases hv
      exact ⟨s, by simp [step], rfl⟩
    · rw [ZeroDb.get_put_of_ne _ _ _ hk] at hv
      obtain ⟨s', hs', hp⟩ := h.stored k v hv
      refine ⟨s', (if_neg ?_).trans hs', hp⟩
      -- a sector of the same scope and id has the same key
      rintro ⟨hi', hm', hid'⟩
      have hkey : s'.pair.1 = k := congrArg Prod.fst hp
      refine hk ?_
      rw [← hkey, Sector.pair, Sector.pair, hi', hm', hid']
  · intro i m id s' hs'
    simp only [step] at hs'
    split at hs'
    · next heq =>
      cases hs'
      obtain ⟨rfl, rfl, rfl⟩ := heq
      exact ⟨⟨rfl, rfl, rfl⟩, ⟨hi, hm⟩, ZeroDb.get_put_self _ _ _ _⟩
    · next hne =>
      obtain ⟨⟨rfl, rfl, rfl⟩, hshort, hget⟩ := h.content i m id s' hs'
      refine ⟨⟨rfl, rfl, rfl⟩, hshort, ?_⟩
      rw [ZeroDb.get_put_of_ne _ _ _ fun hk => ?_]
      · exact hget
      · obtain ⟨hi', hm', hid'⟩ := makeSectorKey_inj hi hm hk
        exact hne ⟨hi'.symm, hm'.symm, hid'.symm⟩

theorem Holds.delete (h : Holds db map) (i' m' : Str) (id' : SectorId) :
    Holds (db.delete .sectors (makeSectorKey i' m' id')) (map.step (.delete i' m' id')) := by
  constructor
  · intro k v hv
    rw [ZeroDb.get_delete] at hv
    split at hv
    · cases hv
    · next hne =>
      obtain ⟨s, hs, hp⟩ := h.stored k v hv
      refine ⟨s, (if_neg ?_).trans hs, hp⟩
      rintro ⟨rfl, rfl, rfl⟩
      exact hne ⟨rfl, (congrArg Prod.fst hp).symm⟩
  · intro i m id s hs
    simp only [step] at hs
    split at hs
    · cases hs
    · next hne =>
      obtain ⟨⟨rfl, rfl, rfl⟩, hshort, hget⟩ := h.content i m id s hs
      refine ⟨⟨rfl, rfl, rfl⟩, hshort, ?_⟩
      rw [ZeroDb.get_delete, if_neg]
      · exact hget
      · rintro ⟨-, hk⟩
        obtain ⟨rfl, rfl, rfl⟩ := makeSectorKey_inj hshort.1 hshort.2 hk.symm
        exact hne ⟨rfl, rfl, rfl⟩

theorem run_holds (h : db.cf .sectors = .empty) {ops : List SectorOp} (hfits : ∀ op ∈ ops, op.Fits) :
    Holds (runSectorOps db ops) (lastPut ops) := by
  induction ops using List.reverseRecOn with
  | nil =>
    refine ⟨fun k v hv => ?_, fun i m id s hs => by cases hs⟩
    simp [runSectorOps, ZeroDb.get, h] at hv
  | append_singleton ops op ih =>
    have hpre := ih fun op' hop' => hfits op' (List.mem_append_left _ hop')
    rw [runSectorOps, lastPut, List.foldl_append, List.foldl_append]
    cases op with
    | put sector =>
      obtain ⟨hi, hm⟩ : Short sector.identityId ∧ Short sector.machineId := hfits (.put sector) (by simp)
      exact hpre.put hi hm
    | delete i m id => exact hpre.delete i m id

/-! ## What is read -/

@[simp] theorem decodeSector_encodeSector (s : Sector) : decodeSector (encodeSector s) = .ok s := by
  simp [decodeSector, encodeSector, Except.mapError]

theorem Holds.run_getSector (h : Holds db map) (i m : Str) (id : SectorId) :
    db.run (ZeroDb.getSector i m id) = (.ok (map i m id), db) := by
  simp only [ZeroDb.getSector, Prog.run_bind, run_getRaw]
  cases hv : db.get .sectors (makeSectorKey i m id) with
  | some v =>
    obtain ⟨s, hs, rfl⟩ := h.get_key hv
    simp only [Prog.run_bind, Prog.run_lift, decodeSector_encodeSector, Prog.run_pure, hs]
  | none =>
    cases hs : map i m id with
    | none => rfl
    | some s =>
      obtain ⟨⟨rfl, rfl, rfl⟩, -, hget⟩ := h.content i m id s hs
      cases hv.symm.trans hget

theorem iterChainLoop_ok {pre : Bytes} {items : KvPairs} {l : List Sector}
    (h : (items.takeWhile fun e => pre.isPrefixOf e.1) = l.map Sector.pair) :
    ZeroDb.iterChainLoop pre (items.map .ok) = .ok l := by
  induction items generalizing l with
  | nil =>
    cases l with
    | nil => rfl
    | cons s l => cases h
  | cons e items ih =>
    obtain ⟨k, v⟩ := e
    by_cases hk : pre.isPrefixOf k = true
    · simp only [List.takeWhile_cons, hk, if_true] at h
      cases l with
      | nil => cases h
      | cons s l =>
        obtain ⟨he, hrest⟩ := List.cons.inj h
        cases he
        simp [ZeroDb.iterChainLoop, hk, ih hrest, Except.map]
    · simp only [List.takeWhile_cons, hk] at h
      cases l with
      | nil => simp [ZeroDb.iterChainLoop, hk]
      | cons s l => cases h

theorem Holds.run_iterChain (h : Holds db map) (i m : Str) :
    ∃ l, db.run (ZeroDb.iterChain i m) = (.ok l, db) ∧
      (∀ s, s ∈ l ↔ (s.identityId = i ∧ s.machineId = m) ∧ map i m s.id = some s) ∧ l.Pairwise fun a b => a.id < b.id := by
  have hinj : Function.Injective Sector.pair := fun a b hab => Postcard.enc_injective _ (Prod.mk.inj hab).2
  obtain ⟨l, hl, hmem, hsorted⟩ : ∃ l : List Sector,
      (db.cf .sectors).select (makeScopePrefix i m).isPrefixOf = l.map Sector.pair ∧
      (∀ s, s ∈ l ↔ (s.identityId = i ∧ s.machineId = m) ∧ map i m s.id = some s) ∧
      l.Pairwise fun a b => a.pair.1 < b.pair.1 := by
    refine OrdMap.select_eq_map hinj (fun k v hv hk => ?_) fun s ⟨⟨hi, hm⟩, hs⟩ => ?_
    · obtain ⟨s, hs, hp⟩ := h.stored k v hv
      obtain ⟨-, ⟨hi, hm⟩, -⟩ := h.content _ _ _ s hs
      have hkey : s.pair.1 = k := congrArg Prod.fst hp
      rw [← hkey, List.isPrefixOf_iff_prefix] at hk
      obtain ⟨rfl, rfl⟩ := (makeScopePrefix_isPrefix_iff hi hm).mp hk
      exact ⟨s, hp, ⟨rfl, rfl⟩, hs⟩
    · subst hi hm
      exact ⟨(h.content _ _ _ s hs).2.2, List.isPrefixOf_iff_prefix.mpr (List.prefix_append _ _)⟩
  refine ⟨l, ?_, hmem, hsorted.imp_of_mem fun {a b} ha hb hab => ?_⟩
  · have hloop := iterChainLoop_ok (takeWhile_isPrefixOf (db.cf .sectors) (makeScopePrefix i m) ▸ hl)
    simp only [ZeroDb.iterChain, Prog.run_bind, run_iteratorCf, ZeroDb.items, Prog.run_lift, hloop]
  · obtain ⟨⟨rfl, rfl⟩, -⟩ := (hmem a).mp ha
    obtain ⟨⟨hi, hm⟩, -⟩ := (hmem b).mp hb
    simp only [Sector.pair, hi, hm] at hab
    exact makeSectorKey_lt_iff.mp hab

end SectorMap

/-- **Sector chains refine a scoped map.** After any run of puts and deletes
in which the names of the sectors put are below 65536 bytes, `get_sector`
returns the sector last put under its scope and id and not deleted since, and
`iter_chain` the live sectors of its scope, each once and by ascending id. -/
theorem sectors_refine_map {db : ZeroDb} (h : db.cf .sectors = .empty) {ops : List SectorOp}
    (hfits : ∀ op ∈ ops, op.Fits) (i m : Str) :
    (∀ id, (runSectorOps db ops).run (ZeroDb.getSector i m id) = (.ok (lastPut ops i m id), runSectorOps db ops)) ∧
    ∃ l, (runSectorOps db ops).run (ZeroDb.iterChain i m) = (.ok l, runSectorOps db ops) ∧
      (∀ s, s ∈ l ↔ (s.identityId = i ∧ s.machineId = m) ∧ lastPut ops i m s.id = some s) ∧
      l.Nodup ∧ l.Pairwise fun a b => a.id < b.id := by
  have hholds := SectorMap.run_holds h hfits
  obtain ⟨l, hrun, hmem, hsorted⟩ := hholds.run_iterChain i m
  refine ⟨fun id => hholds.run_getSector i m id, l, hrun, hmem, ?_, hsorted⟩
  refine hsorted.imp fun {a b} hab heq => ?_
  subst heq
  exact lt_irrefl _ hab

/-- The string `a`, and `ab`. -/
def strA : Str := ⟨[0x61], by decide, by decide⟩

def strAb : Str := ⟨[0x61, 0x62], by decide, by decide⟩

/-- Three scopes whose names are prefixes of each other, and one id. -/
theorem sectors_refine_map_prefixes :
    let sector : Str → Str → UInt64 → Sector := fun i m t => ⟨⟨Arr.fill 16 7⟩, strA, i, m, t, Vec.empty, none⟩
    let ops := [SectorOp.put (sector strA strAb 1), .put (sector strAb strA 2), .put (sector strA strA 3),
      .delete strAb strAb ⟨Arr.fill 16 7⟩, .put (sector strA strA 4)]
    ((runSectorOps ZeroDb.empty ops).run (ZeroDb.iterChain strA strA)).1 = .ok [sector strA strA 4] ∧
    ∃ l, (runSectorOps ZeroDb.empty ops).run (ZeroDb.iterChain strA strA) = (.ok l, runSectorOps ZeroDb.empty ops) ∧
      (∀ s, s ∈ l ↔ (s.identityId = strA ∧ s.machineId = strA) ∧ lastPut ops strA strA s.id = some s) ∧
      l.Nodup ∧ l.Pairwise fun a b => a.id < b.id := by
  intro sector ops
  have hfits : ∀ op ∈ ops, op.Fits := by
    intro op hop
    simp only [ops, List.mem_cons, List.not_mem_nil, or_false] at hop
    rcases hop with rfl | rfl | rfl | rfl | rfl <;> simp [SectorOp.Fits, Short, sector, strA, strAb]
  exact ⟨by decide +kernel, (sectors_refine_map rfl hfits strA strA).2⟩

end ZeroSdk
