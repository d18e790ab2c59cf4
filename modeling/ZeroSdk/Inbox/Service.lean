/-
The inbox index: one entry for each conversation of an owner (an identity on
a machine), under the key owner + inverted timestamp + conversation. The
timestamp is inverted and big-endian so that a forward scan of the owner's
prefix returns the newest conversation first (`encodeKey_lt_iff`).

An entry's key changes with its timestamp, so every write first looks for
the conversation's old entry by scanning the owner's prefix.
-/
import ZeroSdk.Dm.Types

namespace ZeroSdk.Inbox
open Postcard (Codec)

/-! ## Types -/

/-- Distinguishes direct from group conversations. -/
inductive ConversationKind
  | dm
  | group
  deriving DecidableEq

structure ConversationRef where
  conversationId : ConversationId
  kind : ConversationKind
  deriving DecidableEq

/-- A single inbox index entry. -/
structure InboxEntry where
  conversationId : ConversationId
  kind : ConversationKind
  lastTs : UInt64
  unread : UInt32
  previewSender : IdentityId
  preview : Str
  deriving DecidableEq

/-- Aggregate inbox statistics. -/
structure InboxStats where
  totalUnread : UInt64
  conversationCount : Nat
  deriving DecidableEq

inductive InboxError
  | storage (e : StorageError)
  | codec (e : Postcard.Error)
  deriving DecidableEq

def ConversationKind.toFin : ConversationKind → Fin 2
  | .dm => 0
  | .group => 1

def ConversationKind.ofFin : Fin 2 → ConversationKind
  | 0 => .dm
  | 1 => .group

def ConversationKind.codec : Codec ConversationKind :=
  Postcard.iso (Postcard.variant 2 (by decide)) toFin ofFin fun k => by cases k <;> rfl

open Postcard in
def InboxEntry.codec : Codec InboxEntry :=
  iso (pair ConversationId.codec (pair ConversationKind.codec (pair u64 (pair u32 (pair IdentityId.codec str)))))
    (fun e => (e.conversationId, e.kind, e.lastTs, e.unread, e.previewSender, e.preview))
    (fun (c, k, t, u, s, p) => ⟨c, k, t, u, s, p⟩) fun _ => rfl

/-- `InboxService`: the owner it is bound to. The database is the one its
programs run on. -/
structure InboxService where
  identityId : IdentityId
  machineId : MachineId
  deriving DecidableEq

/-! ## Keys -/

def ownerPrefix (identityId : IdentityId) (machineId : MachineId) : Bytes := identityId.bytes.val ++ machineId.bytes.val

/-- `encode_key`: identity, machine, `u64::MAX - last_ts` in big-endian, conversation. -/
def encodeKey (identityId : IdentityId) (machineId : MachineId) (lastTs : UInt64) (conversationId : ConversationId) :
    Bytes :=
  identityId.bytes.val ++ machineId.bytes.val ++ Bytes.be 8 (2 ^ 64 - 1 - lastTs.toNat) ++ conversationId.bytes.val

/-- The prefix of the owner's keys. -/
def InboxService.pre (s : InboxService) : Bytes := ownerPrefix s.identityId s.machineId

/-- The key and the value an entry is stored as. -/
def InboxService.pair (s : InboxService) (e : InboxEntry) : Bytes × Bytes :=
  (encodeKey s.identityId s.machineId e.lastTs e.conversationId, InboxEntry.codec.enc e)

/-- A value names its entry. -/
theorem InboxService.pair_value_inj {s s' : InboxService} {e e' : InboxEntry} (h : (s.pair e).2 = (s'.pair e').2) :
    e = e' := Postcard.enc_injective InboxEntry.codec h

theorem InboxService.pair_injective (s : InboxService) : Function.Injective s.pair := by
  intro e e' h
  exact pair_value_inj (congrArg Prod.snd h)

theorem InboxService.pre_length (s : InboxService) : s.pre.length = 32 := by
  rw [pre, ownerPrefix, List.length_append, s.identityId.bytes.property, s.machineId.bytes.property]

theorem InboxService.pre_inj {s s' : InboxService} (h : s.pre = s'.pre) : s = s' := by
  obtain ⟨⟨⟨i, hi⟩⟩, ⟨⟨m, hm⟩⟩⟩ := s
  obtain ⟨⟨⟨i', hi'⟩⟩, ⟨⟨m', hm'⟩⟩⟩ := s'
  obtain ⟨rfl, rfl⟩ := List.append_inj h (hi.trans hi'.symm)
  rfl

theorem InboxService.pre_isPrefix_iff {s s' : InboxService} {e : InboxEntry} : s.pre <+: (s'.pair e).1 ↔ s = s' := by
  constructor
  · intro ⟨t, ht⟩
    simp only [pair, encodeKey, List.append_assoc] at ht
    rw [← List.append_assoc] at ht
    exact pre_inj (List.append_inj ht (s.pre_length.trans s'.pre_length.symm)).1
  · rintro rfl
    simp only [pair, encodeKey, List.append_assoc]
    rw [← List.append_assoc]
    exact List.prefix_append _ _

/-- Keys of one owner are ordered newest first, then by conversation. -/
theorem encodeKey_lt_iff (i : IdentityId) (m : MachineId) (t t' : UInt64) (c c' : ConversationId) :
    encodeKey i m t c < encodeKey i m t' c' ↔ t' < t ∨ t = t' ∧ c < c' := by
  have ht := t.toNat_lt
  have ht' := t'.toNat_lt
  have hlt := @Bytes.be_lt_be_iff 8 (2 ^ 64 - 1 - t.toNat) (2 ^ 64 - 1 - t'.toNat) (by omega) (by omega)
  have heq : Bytes.be 8 (2 ^ 64 - 1 - t.toNat) = Bytes.be 8 (2 ^ 64 - 1 - t'.toNat) ↔ t = t' := by
    refine ⟨fun h => ?_, fun h => by rw [h]⟩
    have hinv := Bytes.be_inj (by omega) (by omega) h
    exact UInt64.toNat_inj.mp (by omega)
  simp only [encodeKey, List.append_assoc, Bytes.append_left_lt_iff]
  rw [Bytes.append_lt_append_iff (by rw [Bytes.be_length, Bytes.be_length]), hlt, heq, UInt64.lt_iff_toNat_lt]
  refine or_congr ⟨fun h => by omega, fun h => by omega⟩ Iff.rfl

theorem InboxService.pair_key_inj {s s' : InboxService} {e e' : InboxEntry} (h : (s.pair e).1 = (s'.pair e').1) :
    s = s' ∧ e.lastTs = e'.lastTs ∧ e.conversationId = e'.conversationId := by
  have hs : s = s' := pre_isPrefix_iff.mp (h ▸ pre_isPrefix_iff.mpr rfl)
  subst hs
  have h₁ := (encodeKey_lt_iff s.identityId s.machineId e.lastTs e'.lastTs e.conversationId e'.conversationId).not.mp
    (by simp only [pair] at h; rw [h]; exact lt_irrefl _)
  have h₂ := (encodeKey_lt_iff s.identityId s.machineId e'.lastTs e.lastTs e'.conversationId e.conversationId).not.mp
    (by simp only [pair] at h; rw [h]; exact lt_irrefl _)
  simp only [not_or, not_and, not_lt, UInt64.lt_iff_toNat_lt] at h₁ h₂
  have ht : e.lastTs = e'.lastTs := UInt64.toNat_inj.mp (by omega)
  exact ⟨rfl, ht, le_antisymm (h₂.2 ht.symm) (h₁.2 ht)⟩

/-! ## Operations -/

def decodeEntry (b : Bytes) : Except InboxError InboxEntry :=
  (Postcard.fromBytes InboxEntry.codec b).mapError .codec

/-- The loop of `find_raw_entry`: the first pair whose entry is of the conversation. -/
def findLoop (convId : ConversationId) : KvPairs → Except InboxError (Option (Bytes × InboxEntry))
  | [] => .ok none
  | (key, value) :: pairs =>
    match decodeEntry value with
    | .error e => .error e
    | .ok entry => if entry.conversationId = convId then .ok (some (key, entry)) else findLoop convId pairs

namespace InboxService

def findRawEntry (s : InboxService) (convId : ConversationId) : DbProg InboxError (Option (Bytes × InboxEntry)) := do
  let pairs ← (prefixScanRaw .inboxIndex (ownerPrefix s.identityId s.machineId)).mapErr .storage
  Prog.lift (findLoop convId pairs)

/-- Writes the entry under its key. -/
def putEntry (s : InboxService) (entry : InboxEntry) : DbProg InboxError Unit :=
  (putRaw .inboxIndex (encodeKey s.identityId s.machineId entry.lastTs entry.conversationId)
    (InboxEntry.codec.enc entry)).mapErr .storage

def upsert (s : InboxService) (entry : InboxEntry) : DbProg InboxError Unit := do
  match ← s.findRawEntry entry.conversationId with
  | some (oldKey, _) => (deleteRaw .inboxIndex oldKey).mapErr .storage
  | none => pure ()
  s.putEntry entry

/-- `mark_read`: a no-op for an unknown conversation or one without unread
messages. -/
def markRead (s : InboxService) (conversationRef : ConversationRef) : DbProg InboxError Unit := do
  match ← s.findRawEntry conversationRef.conversationId with
  | some (oldKey, entry) =>
    if entry.unread > 0 then
      (deleteRaw .inboxIndex oldKey).mapErr .storage
      s.putEntry { entry with unread := 0 }
    else
      pure ()
  | none => pure ()

/-- The loop of `list_inbox`. -/
def listLoop (limit : Nat) (entries : List InboxEntry) : KvPairs → Except InboxError (List InboxEntry)
  | [] => .ok entries
  | (_, value) :: pairs =>
    if entries.length ≥ limit then .ok entries
    else match decodeEntry value with
      | .error e => .error e
      | .ok entry => listLoop limit (entries ++ [entry]) pairs

/-- `list_inbox`, and `list_conversations` under another name: 50 entries
when no limit is given. -/
def listInbox (s : InboxService) (limit : Option Nat) : DbProg InboxError (List InboxEntry) := do
  let pairs ← (prefixScanRaw .inboxIndex (ownerPrefix s.identityId s.machineId)).mapErr .storage
  Prog.lift (listLoop (limit.getD 50) [] pairs)

/-- The loop of `unread_total`. -/
def unreadLoop (total : UInt64) : KvPairs → Except InboxError UInt64
  | [] => .ok total
  | (_, value) :: pairs =>
    match decodeEntry value with
    | .error e => .error e
    | .ok entry => unreadLoop (total + entry.unread.toUInt64) pairs

def unreadTotal (s : InboxService) : DbProg InboxError UInt64 := do
  let pairs ← (prefixScanRaw .inboxIndex (ownerPrefix s.identityId s.machineId)).mapErr .storage
  Prog.lift (unreadLoop 0 pairs)

/-- The loop of `stats`. -/
def statsLoop (st : InboxStats) : KvPairs → Except InboxError InboxStats
  | [] => .ok st
  | (_, value) :: pairs =>
    match decodeEntry value with
    | .error e => .error e
    | .ok entry => statsLoop ⟨st.totalUnread + entry.unread.toUInt64, st.conversationCount + 1⟩ pairs

def stats (s : InboxService) : DbProg InboxError InboxStats := do
  let pairs ← (prefixScanRaw .inboxIndex (ownerPrefix s.identityId s.machineId)).mapErr .storage
  Prog.lift (statsLoop ⟨0, 0⟩ pairs)

end InboxService

end ZeroSdk.Inbox
