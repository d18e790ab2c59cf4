/-
Paging through a conversation. `history` walks `CF_CHAINS` backward from the
cursor's key, or from just above the conversation's prefix, and stops at the
first key of another kind. The upper bound is the prefix incremented as a
number: keys of the conversation are below it, and of the keys the store can
hold nothing else is between (`bound_increment`). So a page is the
next `limit` messages by descending id (`run_history`), and a walk from page
to page returns the whole conversation once, unless it cannot begin: room for
`limit` messages is reserved before the first is read, and a limit for which
it is more than a `Vec` may have panics (`history_paging`).
-/
import ZeroSdk.Dm.Chains
import ZeroSdk.Dm.Increment
import ZeroSdk.Lib.Paging

namespace ZeroSdk.Dm
open DmService

/-! ## Keys up to a bound -/

/-- The prefix begins with `d`, so the carry of its increment stops in it. -/
theorem makeMsgPrefix_stops (c : ConversationId) : ∃ b ∈ makeMsgPrefix c, b < 0xFF :=
  ⟨0x64, List.mem_cons_self, by decide⟩

theorem increment_makeMsgPrefix (c : ConversationId) : Bytes.Next (makeMsgPrefix c) (incrementBytes (makeMsgPrefix c)) :=
  incrementBytes_next (makeMsgPrefix_stops c)

/-- Conversations come before messages. -/
theorem storageKey_lt (c c' : ConversationId) {k : Bytes} (h : makeMsgPrefix c' <+: k) : c.storageKey < k := by
  obtain ⟨t, rfl⟩ := h
  have hd : makeMsgPrefix c' ++ t = Bytes.ascii ['d', 'm', '_'] ++ (Bytes.ascii ['m', 's', 'g', ':'] ++ c'.bytes.val ++ t) :=
    by simp [makeMsgPrefix, msgKeyPrefix, Bytes.ascii]
  have hlen : (Bytes.ascii ['d', 'm', ':']).length = (Bytes.ascii ['d', 'm', '_']).length := rfl
  rw [hd, ConversationId.storageKey, Bytes.append_lt_append_iff hlen]
  exact .inl (by decide)

/-- A bound under which the conversation's keys are the last ones. -/
def Bound (c : ConversationId) (hi : Bytes) : Prop :=
  ∀ k, 39 ≤ k.length → k.length ≠ 39 → makeMsgPrefix c ≤ k → k ≤ hi → makeMsgPrefix c <+: k

theorem bound_increment (c : ConversationId) : Bound c (incrementBytes (makeMsgPrefix c)) := by
  intro k hlen hne hge hle
  rw [← makeMsgPrefix_length c] at hlen hne
  refine (increment_makeMsgPrefix c).isPrefix_of_lt hlen hge (lt_of_le_of_ne hle fun heq => hne ?_)
  rw [heq, (increment_makeMsgPrefix c).length]

theorem bound_makeMsgKey (c : ConversationId) (id : MessageId) : Bound c (makeMsgKey c id) := by
  intro k _ _ hge hle
  by_contra hn
  exact absurd hle (not_le.mpr (Bytes.lt_of_not_prefix (makeMsgPrefix_isPrefix_iff.mpr rfl) hge hn))

/-! ## Pages -/

/-- The pair a message is stored as. -/
def msgPair (m : Message) : Bytes × Bytes := (makeMsgKey m.conversationId m.id, Message.codec.enc m)

theorem makeMsgKey_lt_iff (c : ConversationId) {id id' : MessageId} : makeMsgKey c id < makeMsgKey c id' ↔ id < id' :=
  Bytes.append_left_lt_iff

/-- The messages of a conversation, by ascending id. -/
theorem WellKeyed.messages {db : ZeroDb} (hw : WellKeyed db) (c : ConversationId) :
    ∃ l : List Message, (db.cf .chains).select (makeMsgPrefix c).isPrefixOf = l.map msgPair ∧
      l.Pairwise (fun a b => a.id < b.id) ∧ (∀ m ∈ l, m.conversationId = c) ∧
      ∀ id m, messageAt db c id = some m ↔ m ∈ l ∧ m.id = id := by
  have hinj : Function.Injective msgPair := fun a b hab => Postcard.enc_injective _ (Prod.mk.inj hab).2
  obtain ⟨l, hl, hin, hsorted⟩ : ∃ l : List Message,
      (db.cf .chains).select (makeMsgPrefix c).isPrefixOf = l.map msgPair ∧
      (∀ m, m ∈ l ↔ m.conversationId = c ∧ messageAt db c m.id = some m) ∧
      l.Pairwise fun a b => (msgPair a).1 < (msgPair b).1 := by
    refine OrdMap.select_eq_map hinj (fun k v hv hk => ?_) fun m hin => ?_
    · rw [List.isPrefixOf_iff_prefix] at hk
      rcases hw k v hv with ⟨c', rfl⟩ | ⟨m, rfl, rfl⟩
      · exact absurd (storageKey_lt c' c hk) (lt_irrefl _)
      · obtain rfl := makeMsgPrefix_isPrefix_iff.mp hk
        have hv' : db.get .chains (makeMsgKey m.conversationId m.id) = some (Message.codec.enc m) := hv
        exact ⟨m, rfl, rfl, by simp [messageAt, hv', Except.toOption]⟩
    · obtain ⟨rfl, hm⟩ := hin
      have hv := hw.get_eq m.conversationId m.id
      rw [hm] at hv
      exact ⟨hv, List.isPrefixOf_iff_prefix.mpr (makeMsgPrefix_isPrefix_iff.mpr rfl)⟩
  refine ⟨l, hl, ?_, fun m hm => ((hin m).mp hm).1, fun id m => ?_⟩
  · refine hsorted.imp_of_mem fun {a b} ha hb hab => ?_
    simp only [msgPair, ((hin a).mp ha).1, ((hin b).mp hb).1] at hab
    exact (makeMsgKey_lt_iff c).mp hab
  · constructor
    · intro hm
      obtain ⟨hc, rfl⟩ := hw.own hm
      exact ⟨(hin m).mpr ⟨hc, hm⟩, rfl⟩
    · rintro ⟨hm, rfl⟩
      exact ((hin m).mp hm).2

/-- The loop of `history` over the pairs of some messages of the
conversation: all but the cursor's own, up to the limit. -/
theorem historyLoop_ok {c : ConversationId} {seekKey : Bytes} {before : Option MessageId} {limit : Nat}
    {items : KvPairs} {msgs acc : List Message}
    (h : (items.takeWhile fun e => (makeMsgPrefix c).isPrefixOf e.1) = msgs.map msgPair) (hroom : acc.length < limit) :
    historyLoop (makeMsgPrefix c) seekKey before limit acc (items.map .ok) =
      .ok (acc ++ (msgs.filter fun m => !(before.isSome && (msgPair m).1 == seekKey)).take (limit - acc.length)) := by
  induction items generalizing msgs acc with
  | nil =>
    cases msgs with
    | nil => simp [historyLoop]
    | cons m msgs => cases h
  | cons e items ih =>
    by_cases hk : (makeMsgPrefix c).isPrefixOf e.1 = true
    · simp only [List.takeWhile_cons, hk, if_true] at h
      cases msgs with
      | nil => cases h
      | cons m msgs =>
        obtain ⟨rfl, hrest⟩ := List.cons.inj h
        have hdec : decodeMessage (msgPair m).2 = .ok m := decodeMessage_enc m
        simp only [List.map_cons, historyLoop, hk, Bool.not_true, Bool.false_eq_true, if_false]
        by_cases hskip : (before.isSome && (msgPair m).1 == seekKey) = true
        · rw [if_pos hskip, ih hrest hroom, List.filter_cons_of_neg (by simp [hskip])]
        · rw [if_neg hskip, hdec, List.filter_cons_of_pos (by simp [hskip])]
          obtain ⟨n, hn⟩ : ∃ n, limit - acc.length = n + 1 := ⟨limit - acc.length - 1, by omega⟩
          simp only [hn, List.take_succ_cons]
          split
          · next hfull =>
            have : n = 0 := by omega
            simp [this]
          · next hmore =>
            rw [ih hrest (by simp; omega)]
            simp only [List.length_append, List.length_singleton, List.append_assoc, List.singleton_append]
            rw [Nat.sub_add_eq, hn, Nat.add_sub_cancel]
    · simp only [List.takeWhile_cons, hk] at h
      cases msgs with
      | nil => simp [historyLoop, hk]
      | cons m msgs => cases h

/-- The backward scan from a bound, while it is in the conversation: the
messages up to the bound, last first. -/
theorem takeWhile_chains {db : ZeroDb} (hw : WellKeyed db) {c : ConversationId} {l : List Message}
    (hl : (db.cf .chains).select (makeMsgPrefix c).isPrefixOf = l.map msgPair) {hi : Bytes} (hb : Bound c hi) :
    (((db.cf .chains).reverseFrom hi).takeWhile fun e => (makeMsgPrefix c).isPrefixOf e.1) =
      ((l.filter fun m => decide ((msgPair m).1 ≤ hi)).reverse).map msgPair := by
  rw [OrdMap.takeWhile_reverseFrom (p := (makeMsgPrefix c).isPrefixOf)]
  · have hsel : ((db.cf .chains).select fun k => (makeMsgPrefix c).isPrefixOf k && decide (k ≤ hi)) =
        ((db.cf .chains).select (makeMsgPrefix c).isPrefixOf).filter fun e => decide (e.1 ≤ hi) := by
      simp only [OrdMap.select, List.filter_filter, Bool.and_comm]
    rw [hsel, hl, List.filter_map, List.map_reverse]
    rfl
  · -- above a key of the conversation and up to the bound there is no other key
    intro a _ b hmem hab hbhi hpa
    rw [List.isPrefixOf_iff_prefix] at hpa ⊢
    rcases hw b.1 b.2 (OrdMap.mem_entries.mp hmem) with ⟨c', hk⟩ | ⟨m, hk, -⟩
    · exact absurd (lt_trans hab (hk ▸ storageKey_lt c' c hpa)) (lt_irrefl _)
    · have hlen : b.1.length = 55 := by rw [hk, makeMsgKey_length]
      exact hb b.1 (by omega) (by omega) (le_trans (Bytes.prefix_le hpa) (le_of_lt hab)) hbhi

theorem run_history {db : ZeroDb} (hw : WellKeyed db) {c : ConversationId} {l : List Message}
    (hl : (db.cf .chains).select (makeMsgPrefix c).isPrefixOf = l.map msgPair) (hc : ∀ m ∈ l, m.conversationId = c)
    {n : Nat} (hn : 1 ≤ n) (hcap : HasCapacity n) (before : Option MessageId) :
    (db.run (history c before n)).1 = .ok (some (Paging.page (·.id) l.reverse n before)) := by
  have hrun : ∀ seekKey, Bound c seekKey →
      historyLoop (makeMsgPrefix c) seekKey before n [] (((db.cf .chains).reverseFrom seekKey).map .ok) =
        .ok ((((l.filter fun m => decide ((msgPair m).1 ≤ seekKey)).reverse).filter
          fun m => !(before.isSome && (msgPair m).1 == seekKey)).take n) := by
    intro seekKey hb
    rw [historyLoop_ok (takeWhile_chains hw hl hb) (by rw [List.length_nil]; omega)]
    simp
  have hpage : ∀ (seekKey : Bytes) (page : List Message),
      historyLoop (makeMsgPrefix c) seekKey before n [] (((db.cf .chains).reverseFrom seekKey).map .ok) = .ok page →
      (db.run (do
        let items ← iteratorCf .chains (.reverse seekKey)
        if HasCapacity n then
          let results ← Prog.lift (historyLoop (makeMsgPrefix c) seekKey before n [] items)
          pure (some results)
        else pure none : DbProg DmError _)).1 = .ok (some page) := by
    intro seekKey page hloop
    simp only [Prog.run_bind, run_iteratorCf, ZeroDb.items, if_pos hcap, Prog.run_lift, hloop]
    rfl
  unfold history
  cases before with
  | none =>
    refine hpage _ _ ((hrun _ (bound_increment c)).trans ?_)
    have hall : (l.filter fun m => decide ((msgPair m).1 ≤ incrementBytes (makeMsgPrefix c))) = l := by
      refine List.filter_eq_self.mpr fun m hm => decide_eq_true (le_of_lt ((increment_makeMsgPrefix c).lt_of_isPrefix ?_))
      exact makeMsgPrefix_isPrefix_iff.mpr (hc m hm).symm
    rw [hall, List.filter_eq_self.mpr (by simp)]
    rfl
  | some id =>
    refine hpage _ _ ((hrun _ (bound_makeMsgKey c id)).trans ?_)
    rw [Paging.page, Paging.below, List.filter_reverse, List.filter_reverse, List.filter_filter]
    congr 3
    refine List.filter_congr fun m hm => ?_
    -- at most the cursor and not the cursor: below it
    have hkey : (msgPair m).1 = makeMsgKey c m.id := by rw [msgPair, hc m hm]
    have hle : (msgPair m).1 ≤ makeMsgKey c id ↔ m.id ≤ id := by
      rw [hkey, ← not_lt, makeMsgKey_lt_iff, not_lt]
    have heq : (msgPair m).1 = makeMsgKey c id ↔ m.id = id := by
      rw [hkey]
      exact ⟨fun h => (makeMsgKey_inj h).2, fun h => by rw [h]⟩
    simp only [Option.isSome_some, Bool.true_and, hle, beq_eq_decide, heq, lt_iff_le_and_ne, ← decide_not]
    rw [Bool.and_comm, ← Bool.decide_and]

/-- A limit with no room for it panics, whatever is stored. -/
theorem run_history_overflow (db : ZeroDb) (c : ConversationId) (before : Option MessageId) {n : Nat}
    (hcap : ¬ HasCapacity n) : (db.run (history c before n)).1 = .ok none := by
  unfold history
  simp only [Prog.run_bind, run_iteratorCf, if_neg hcap]
  rfl

/-! ## Runs -/

/-- A call that writes to `CF_CHAINS`, of any service or receiver. -/
inductive Write
  | openConversation (s : DmService) (peer : IdentityId)
  | saveConversation (conv : Conversation)
  | storeMessage (msg : Message)
  | sendText (s : DmService) (c : ConversationId) (text : Str) (nowMs : UInt64) (id : MessageId) (sectorId : SectorId)
  | updateStatus (c : ConversationId) (id : MessageId) (status : MessageStatus) (nowMs : UInt64)
  | processInboundDm (r : DmReceiver) (bytes : Bytes) (nowMs receiptMs : UInt64) (sectorId : SectorId)
    (enqueuedMs : UInt64)

def Write.run (blake3 : Bytes → Arr 32) (db : ZeroDb) : Write → ZeroDb
  | .openConversation s peer => (db.run (s.openConversation blake3 peer)).2
  | .saveConversation conv => (db.run (DmService.saveConversation conv)).2
  | .storeMessage msg => (db.run (DmService.storeMessage msg)).2
  | .sendText s c text now id sectorId => (db.run (s.sendText c text now id sectorId)).2
  | .updateStatus c id status now => (db.run (DmService.updateStatus c id status now)).2
  | .processInboundDm r bytes now receiptMs sectorId enqueuedMs =>
    (db.run (r.processInboundDm blake3 bytes now receiptMs sectorId enqueuedMs)).2

def runWrites (blake3 : Bytes → Arr 32) (db : ZeroDb) (writes : List Write) : ZeroDb :=
  writes.foldl (Write.run blake3) db

theorem write_wellKeyed (blake3 : Bytes → Arr 32) {db : ZeroDb} (hw : WellKeyed db) (w : Write) :
    WellKeyed (w.run blake3 db) := by
  cases w with
  | openConversation s peer => exact (update_openConversation blake3 db s peer).wellKeyed hw
  | saveConversation conv => exact (update_saveConversation db conv).wellKeyed hw
  | storeMessage msg => exact (update_storeMessage db msg).wellKeyed hw
  | sendText s c text now id sectorId =>
    simp only [Write.run]
    rcases update_sendText db s c text now id sectorId with hsame | hupd
    · rw [hsame]
      exact hw
    · exact hupd.wellKeyed hw
  | updateStatus c id status now =>
    simp only [Write.run]
    rcases update_updateStatus db c id status now with ⟨e, hrun, -⟩ | ⟨m, -, -, hrun⟩
    · rw [hrun]
      exact hw
    · rw [hrun]
      exact (update_storeMessage db _).wellKeyed hw
  | processInboundDm r bytes now receiptMs sectorId enqueuedMs =>
    exact hw.inbound blake3 r bytes now receiptMs sectorId enqueuedMs

theorem run_wellKeyed (blake3 : Bytes → Arr 32) {db : ZeroDb} (hw : WellKeyed db) (writes : List Write) :
    WellKeyed (runWrites blake3 db writes) := by
  induction writes generalizing db with
  | nil => exact hw
  | cons w writes ih => exact ih (write_wellKeyed blake3 hw w)

/-! ## Page after page -/

/-- The page a caller gets; a panic is an error without a value. -/
def historyPage (db : ZeroDb) (c : ConversationId) (n : Nat) (before : Option MessageId) :
    Except (Option DmError) (List Message) :=
  match (db.run (history c before n)).1 with
  | .ok (some page) => .ok page
  | .ok none => .error none
  | .error e => .error (some e)

/-- Paging is complete: the messages stored under the conversation form a list
`l` by strictly descending id, and fetching page after page from the last id
returned ends, with pages of at most `n` messages that together are `l`. -/
def PagingComplete (db : ZeroDb) (c : ConversationId) (n : Nat) : Prop :=
  ∃ l : List Message, l.Pairwise (fun a b => b.id < a.id) ∧ (∀ m ∈ l, m.conversationId = c) ∧
    (∀ id m, (db.run (getMessage c id)).1 = .ok (some m) ↔ m ∈ l ∧ m.id = id) ∧
    ∃ fuel pages, Paging.walk (fun m => m.id) (historyPage db c n) fuel none = some pages ∧
      pages.flatten = l ∧ ∀ p ∈ pages, p.length ≤ n

theorem WellKeyed.pagingComplete {db : ZeroDb} (hw : WellKeyed db) (c : ConversationId) {n : Nat} (hn : 1 ≤ n)
    (hcap : HasCapacity n) : PagingComplete db c n := by
  obtain ⟨l, hl, hasc, hc, hmem⟩ := hw.messages c
  have hdesc : l.reverse.Pairwise fun a b => b.id < a.id := List.pairwise_reverse.mpr hasc
  have hfetch : ∀ before, historyPage db c n before = .ok (Paging.page (·.id) l.reverse n before) := by
    intro before
    rw [historyPage, run_history hw hl hc hn hcap before]
  refine ⟨l.reverse, hdesc, fun m hm => hc m (List.mem_reverse.mp hm), fun id m => ?_, ?_⟩
  · rw [run_getMessage hw, List.mem_reverse, ← hmem]
    simp
  · obtain ⟨fuel, pages, hwalk, hflat⟩ := Paging.walk_of_aligned hn hfetch (Paging.aligned_of_descending hdesc n)
      (List.nil_append l.reverse).symm (.inl (Nat.dvd_zero n)) (show Paging.below _ l.reverse none = l.reverse from rfl)
    exact ⟨fuel, pages, hwalk, hflat, Paging.walk_page_length hn hfetch hwalk⟩

theorem not_pagingComplete (db : ZeroDb) (c : ConversationId) {n : Nat} (hcap : ¬ HasCapacity n) :
    ¬ PagingComplete db c n := by
  rintro ⟨-, -, -, -, fuel, pages, hwalk, -⟩
  have hpanic : historyPage db c n none = .error none := by rw [historyPage, run_history_overflow db c none hcap]
  cases fuel with
  | zero => cases hwalk
  | succ fuel =>
    rw [Paging.walk, hpanic] at hwalk
    cases hwalk

/-- **When history paging is complete.** After any run of writes by any
services, for every conversation and page size, paging is complete exactly if
a `Vec` can have room for a page. -/
theorem history_paging (blake3 : Bytes → Arr 32) {db : ZeroDb} (h : db.cf .chains = .empty) (writes : List Write)
    (c : ConversationId) {n : Nat} (hn : 1 ≤ n) :
    PagingComplete (runWrites blake3 db writes) c n ↔ HasCapacity n := by
  have hw₀ : WellKeyed db := by
    intro k v hv
    simp [ZeroDb.get, h] at hv
  have hw := run_wellKeyed blake3 hw₀ writes
  refine ⟨fun hcomplete => ?_, hw.pagingComplete c hn⟩
  by_contra hcap
  exact not_pagingComplete _ c hcap hcomplete

/-- A conversation whose id ends in `0xFF`, a message of it, and two stored. -/
def allOnes : ConversationId := ⟨Arr.fill 32 0xFF⟩

def noteNo (id : UInt8) : Message :=
  ⟨⟨Arr.fill 16 id⟩, allOnes, ⟨Arr.fill 16 2⟩, ⟨Arr.fill 16 3⟩, Str.empty, .delivered, 5, 10⟩

def twoNotes : ZeroDb :=
  runWrites (fun _ => Arr.fill 32 0) ZeroDb.empty
    [.saveConversation ⟨allOnes, ⟨Arr.fill 16 2⟩, none⟩, .storeMessage (noteNo 1), .storeMessage (noteNo 2)]

/-- Two messages, one page each. -/
theorem history_paging_two :
    PagingComplete twoNotes allOnes 1 ∧
      (∀ id m, (twoNotes.run (getMessage allOnes id)).1 = .ok (some m) → m = noteNo 1 ∨ m = noteNo 2) ∧
      Paging.walk (fun m => m.id) (historyPage twoNotes allOnes 1) 3 none = some [[noteNo 2], [noteNo 1]] := by
  have hcomplete : PagingComplete twoNotes allOnes 1 :=
    (history_paging _ (show ZeroDb.empty.cf .chains = .empty from rfl) _ allOnes le_rfl).mpr (by decide)
  have hwalk : Paging.walk (fun m => m.id) (historyPage twoNotes allOnes 1) 3 none = some [[noteNo 2], [noteNo 1]] := by
    decide +kernel
  refine ⟨hcomplete, fun id m hm => ?_, hwalk⟩
  obtain ⟨l, -, -, hmem, fuel, pages, hpages, rfl, -⟩ := hcomplete
  cases Paging.walk_unique hpages hwalk
  have hin := ((hmem id m).mp hm).1
  simp only [List.flatten_cons, List.flatten_nil, List.append_nil, List.singleton_append, List.mem_cons,
    List.not_mem_nil, or_false] at hin
  exact hin.symm

/-- With `usize::MAX` for the limit `history` panics. -/
theorem history_limit_overflow :
    (twoNotes.run (history allOnes none (2 ^ 64 - 1))).1 = .ok none ∧ ¬ PagingComplete twoNotes allOnes (2 ^ 64 - 1) := by
  have hcap : ¬ HasCapacity (2 ^ 64 - 1) := by decide
  exact ⟨run_history_overflow _ _ _ hcap, not_pagingComplete _ _ hcap⟩

end ZeroSdk.Dm
