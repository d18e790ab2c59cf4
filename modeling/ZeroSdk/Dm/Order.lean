/-
Is `history` newest first? Its documentation says so: messages come by
descending `created_at_ms`. But the scan goes by key, that is by message id,
and `created_at_ms` never meets it: `send_text` reads the clock before it
draws the id, and an inbound sector brings both from its sender. So two
sectors from a sender whose ids and times disagree are listed oldest first
(`later_id_listed_first`).

The ids in time order are what is missing: a database lists newest first when
its messages are `InOrder`, a write keeps that exactly if the message it adds
`Fits` the ones stored (`inOrder_write_iff`), and so a run is newest first all
along exactly if every message added on the way fits (`newest_first_iff`).
-/
import ZeroSdk.Dm.Monotone
import ZeroSdk.Dm.Paginate

namespace ZeroSdk.Dm
open DmService

/-- Every page of every conversation is by descending `created_at_ms`. There
is one for every limit but those that panic. -/
def NewestFirst (db : ZeroDb) : Prop :=
  ∀ c before limit, ∃ page, (db.run (history c before limit)).1 = .ok page ∧ (page.isSome ↔ HasCapacity limit) ∧
    ∀ msgs, page = some msgs → msgs.Pairwise fun a b => b.createdAtMs ≤ a.createdAtMs

/-- Two messages of a conversation, the one with the lower id not the later. -/
def Message.Agrees (a b : Message) : Prop :=
  (a.id < b.id → a.createdAtMs ≤ b.createdAtMs) ∧ (b.id < a.id → b.createdAtMs ≤ a.createdAtMs)

/-- In every conversation ids and times agree. -/
def InOrder (db : ZeroDb) : Prop :=
  ∀ c id id' m m', messageAt db c id = some m → messageAt db c id' = some m' → m.Agrees m'

/-- A message agrees with those stored in its conversation under other ids. -/
def Fits (db : ZeroDb) (new : Message) : Prop :=
  ∀ id m, messageAt db new.conversationId id = some m → m.Agrees new

/-- The message a write adds. A status update adds none: it writes a message
back with its id and its time. -/
def Write.adds (db : ZeroDb) : Write → Option Message
  | .storeMessage msg => some msg
  | .sendText s c text now id _ =>
    match (db.run (resumeConversation c)).1 with
    | .ok _ => some ⟨id, c, s.identity, s.machineId, text, .queued, now, now⟩
    | .error _ => none
  | .processInboundDm _ bytes now _ _ _ =>
    match decodeDm bytes with
    | .ok p => some (p.toMessage now)
    | .error _ => none
  | .openConversation .. | .saveConversation .. | .updateStatus .. => none

/-- Every message added in a run fits where it is added. -/
def FittingRun (blake3 : Bytes → Arr 32) (db : ZeroDb) : List Write → Prop
  | [] => True
  | w :: writes => (∀ new, w.adds db = some new → Fits db new) ∧ FittingRun blake3 (w.run blake3 db) writes

/-! ## Pages -/

theorem Message.Agrees.symm {a b : Message} (h : a.Agrees b) : b.Agrees a := ⟨h.2, h.1⟩

theorem Message.Agrees.refl (a : Message) : a.Agrees a := ⟨fun _ => UInt64.le_refl _, fun _ => UInt64.le_refl _⟩

instance : Std.Symm Message.Agrees := ⟨fun _ _ h => h.symm⟩

/-- Ids and times that agree make every page newest first. -/
theorem InOrder.newestFirst {db : ZeroDb} (hw : WellKeyed db) (h : InOrder db) : NewestFirst db := by
  intro c before limit
  obtain ⟨l, hl, hasc, hc, hmem⟩ := hw.messages c
  have hdesc : l.reverse.Pairwise fun a b => b.createdAtMs ≤ a.createdAtMs := by
    refine List.pairwise_reverse.mpr (hasc.imp_of_mem fun {a b} ha hb hlt => ?_)
    exact (h c a.id b.id a b ((hmem _ _).mpr ⟨ha, rfl⟩) ((hmem _ _).mpr ⟨hb, rfl⟩)).1 hlt
  have hpage : ∀ n before, (Paging.page (·.id) l.reverse n before).Pairwise fun a b => b.createdAtMs ≤ a.createdAtMs := by
    intro n before
    refine hdesc.sublist ((List.take_sublist _ _).trans ?_)
    cases before with
    | none => exact List.Sublist.refl _
    | some b => exact List.filter_sublist
  by_cases hcap : HasCapacity limit
  · obtain ⟨n, hrun⟩ : ∃ n, (db.run (history c before limit)).1 = .ok (some (Paging.page (·.id) l.reverse n before)) := by
      rcases Nat.eq_zero_or_pos limit with rfl | hpos
      · rw [history_zero]
        exact ⟨1, run_history hw hl hc le_rfl (by decide) before⟩
      · exact ⟨limit, run_history hw hl hc hpos hcap before⟩
    refine ⟨_, hrun, iff_of_true rfl hcap, fun msgs hmsgs => ?_⟩
    cases hmsgs
    exact hpage n before
  · refine ⟨none, run_history_overflow db c before hcap, iff_of_false Bool.false_ne_true hcap, fun msgs hmsgs => ?_⟩
    cases hmsgs

/-- Neighbours of a conversation are on a page of two, at the message before
them. -/
theorem NewestFirst.neighbours {db : ZeroDb} (hw : WellKeyed db) (h : NewestFirst db) {c : ConversationId}
    {l : List Message} (hl : (db.cf .chains).select (makeMsgPrefix c).isPrefixOf = l.map msgPair)
    (hasc : l.Pairwise fun a b => a.id < b.id) (hc : ∀ m ∈ l, m.conversationId = c) {pre post : List Message}
    {a b : Message} (hsplit : l.reverse = pre ++ a :: b :: post) : b.createdAtMs ≤ a.createdAtMs := by
  have hdesc : l.reverse.Pairwise fun a b => b.id < a.id := List.pairwise_reverse.mpr hasc
  obtain ⟨before, hbelow⟩ : ∃ before, Paging.below (·.id) l.reverse before = a :: b :: post := by
    rcases List.eq_nil_or_concat' pre with rfl | ⟨pre, x, rfl⟩
    · exact ⟨none, hsplit⟩
    · have hx : l.reverse = pre ++ x :: a :: b :: post := by rw [hsplit, List.append_assoc, List.singleton_append]
      obtain ⟨-, hpost, hpre⟩ := List.pairwise_append.mp (hx ▸ hdesc)
      exact ⟨some x.id, Paging.below_of_aligned hx (fun y hy => hpre y hy x List.mem_cons_self)
        (List.pairwise_cons.mp hpost).1⟩
  obtain ⟨page, hrun, -, hordered⟩ := h c before 2
  rw [run_history hw hl hc (Nat.le_succ 1) (by decide), Paging.page, hbelow] at hrun
  cases hrun
  exact (List.pairwise_cons.mp (hordered _ rfl)).1 b List.mem_cons_self

/-- Conversely, pages of two messages show whether they agree. -/
theorem NewestFirst.inOrder {db : ZeroDb} (hw : WellKeyed db) (h : NewestFirst db) : InOrder db := by
  intro c id id' m m' hm hm'
  obtain ⟨l, hl, hasc, hc, hmem⟩ := hw.messages c
  have hchain : l.reverse.IsChain fun a b => b.createdAtMs ≤ a.createdAtMs := by
    refine List.isChain_iff_forall_rel_of_append_cons_cons.mpr fun a b pre post hsplit => ?_
    exact h.neighbours hw hl hasc hc hsplit
  have hdesc : l.Pairwise fun a b => a.createdAtMs ≤ b.createdAtMs := by
    have htrans : IsTrans Message fun a b => b.createdAtMs ≤ a.createdAtMs := ⟨fun _ _ _ hab hbc => UInt64.le_trans hbc hab⟩
    exact List.pairwise_reverse.mp hchain.pairwise
  have hagree : l.Pairwise Message.Agrees :=
    (hasc.and hdesc).imp fun h => ⟨fun _ => h.2, fun hgt => absurd h.1 (lt_asymm hgt)⟩
  exact hagree.forall_of_forall (fun a _ => .refl a) ((hmem _ _).mp hm).1 ((hmem _ _).mp hm').1

/-! ## Writes -/

theorem Update.inOrder_none {db db' : ZeroDb} (h : Update db db' none) (ho : InOrder db) : InOrder db' := by
  intro c id id' m m' hm hm'
  rw [h.messages] at hm hm'
  exact ho c id id' m m' hm hm'

theorem Update.inOrder_iff {db db' : ZeroDb} {new : Message} (h : Update db db' (some new)) (hw : WellKeyed db)
    (ho : InOrder db) : InOrder db' ↔ Fits db new := by
  constructor
  · intro ho' id m hm
    by_cases hid : new.id = id
    · -- the message it replaces
      have hown := (hw.own hm).2
      rw [← hid] at hown
      exact ⟨fun hlt => absurd (hown ▸ hlt) (lt_irrefl _), fun hlt => absurd (hown ▸ hlt) (lt_irrefl _)⟩
    · refine ho' new.conversationId id new.id m new ?_ h.written
      rw [h.messages]
      exact (if_neg fun hn => hid hn.2).trans hm
  · intro hfits c id id' m m' hm hm'
    rcases h.stored hm with hold | ⟨hnew, hc, -⟩
    · rcases h.stored hm' with hold' | ⟨hnew', hc', -⟩
      · exact ho c id id' m m' hold hold'
      · cases hnew'
        exact hfits id m (hc' ▸ hold)
    · cases hnew
      rcases h.stored hm' with hold' | ⟨hnew', -, -⟩
      · exact (hfits id' m' (hc ▸ hold')).symm
      · cases hnew'
        exact .refl _

theorem inOrder_updateStatus {db : ZeroDb} (hw : WellKeyed db) (ho : InOrder db) (c : ConversationId) (id : MessageId)
    (new : MessageStatus) (now : UInt64) : InOrder (db.run (updateStatus c id new now)).2 := by
  rcases update_updateStatus db c id new now with ⟨e, hrun, -⟩ | ⟨m, hm, -, hrun⟩
  · rw [hrun]
    exact ho
  · rw [hrun]
    obtain ⟨rfl, rfl⟩ := hw.own hm
    exact ((update_storeMessage db _).inOrder_iff hw ho).mpr fun id' m' hm' => ho _ _ _ m' m hm' hm

theorem inOrder_write_iff (blake3 : Bytes → Arr 32) {db : ZeroDb} (hw : WellKeyed db) (ho : InOrder db) (w : Write) :
    InOrder (w.run blake3 db) ↔ ∀ new, w.adds db = some new → Fits db new := by
  have hnone : ∀ {db'}, Update db db' none →
      (InOrder db' ↔ ∀ new, (none : Option Message) = some new → Fits db new) := fun h =>
    iff_of_true (h.inOrder_none ho) fun _ hnew => (by cases hnew)
  have hsome : ∀ {db' m}, Update db db' (some m) →
      (InOrder db' ↔ ∀ new, some m = some new → Fits db new) := fun h =>
    (h.inOrder_iff hw ho).trans ⟨fun hfits new hnew => Option.some.inj hnew ▸ hfits, fun hall => hall _ rfl⟩
  cases w with
  | openConversation s peer => exact hnone (update_openConversation blake3 db s peer)
  | saveConversation conv => exact hnone (update_saveConversation db conv)
  | storeMessage msg => exact hsome (update_storeMessage db msg)
  | updateStatus c id status now =>
    exact iff_of_true (inOrder_updateStatus hw ho c id status now) fun _ hnew => (by cases hnew)
  | sendText s c text now id sectorId =>
    simp only [Write.run, Write.adds]
    cases hres : (db.run (resumeConversation c)).1 with
    | error e =>
      rw [sendText_refused hres]
      exact hnone (.refl db)
    | ok conv => exact hsome (update_sendText_ok hres text now id sectorId)
  | processInboundDm r bytes now receiptMs sectorId enqueuedMs =>
    simp only [Write.run, Write.adds]
    cases hd : decodeDm bytes with
    | error e =>
      rw [run_inbound_error blake3 db r hd]
      exact hnone (.refl db)
    | ok p => exact hsome (update_inbound blake3 db r hd now receiptMs sectorId enqueuedMs)

/-! ## Runs -/

theorem fittingRun_iff (blake3 : Bytes → Arr 32) {db : ZeroDb} (hw : WellKeyed db) (ho : InOrder db)
    (writes : List Write) :
    (∀ pre, pre <+: writes → NewestFirst (runWrites blake3 db pre)) ↔ FittingRun blake3 db writes := by
  induction writes generalizing db with
  | nil =>
    refine iff_of_true (fun pre hpre => ?_) trivial
    rw [List.prefix_nil.mp hpre]
    exact ho.newestFirst hw
  | cons w writes ih =>
    have hw' := write_wellKeyed blake3 hw w
    constructor
    · intro h
      have ho' : InOrder (w.run blake3 db) := (h [w] ⟨writes, rfl⟩).inOrder hw'
      refine ⟨(inOrder_write_iff blake3 hw ho w).mp ho', (ih hw' ho').mp fun pre hpre => ?_⟩
      exact h (w :: pre) (List.cons_prefix_cons.mpr ⟨rfl, hpre⟩)
    · intro ⟨hfits, hrest⟩ pre hpre
      have ho' : InOrder (w.run blake3 db) := (inOrder_write_iff blake3 hw ho w).mpr hfits
      cases pre with
      | nil => exact ho.newestFirst hw
      | cons w' pre =>
        obtain ⟨rfl, hpre'⟩ := List.cons_prefix_cons.mp hpre
        exact (ih hw' ho').mpr hrest pre hpre'

/-- **When history is newest first.** Along a run of calls that starts without
messages, `history` is by descending `created_at_ms` in every state reached,
for every conversation, cursor and limit, exactly if every message a call adds
fits the messages then stored in its conversation: those with lower ids are
not newer than it, those with higher ids not older. -/
theorem newest_first_iff (blake3 : Bytes → Arr 32) {db : ZeroDb} (h : db.cf .chains = .empty) (writes : List Write) :
    (∀ pre, pre <+: writes → NewestFirst (runWrites blake3 db pre)) ↔ FittingRun blake3 db writes := by
  have hnone : ∀ k, db.get .chains k = none := by
    intro k
    simp [ZeroDb.get, h]
  refine fittingRun_iff blake3 (fun k v hv => ?_) (fun c id id' m m' hm => ?_) writes
  · rw [hnone] at hv
    cases hv
  · rw [messageAt, hnone] at hm
    cases hm

/-- One sector arrives in a new database. -/
theorem newest_first_iff_hello :
    let writes : List Write := [.processInboundDm stranger (DmSectorPayload.codec.enc hello) 10 10 (sectorNo 0) 10]
    ∀ pre, pre <+: writes → NewestFirst (runWrites (fun _ => Arr.fill 32 0) ZeroDb.empty pre) := by
  refine (newest_first_iff _ (show ZeroDb.empty.cf .chains = .empty from rfl) _).mpr ⟨fun new _ id m hm => ?_, trivial⟩
  cases hm

/-- A sector with a later id and an earlier time arrives after it: it is the
first of the page. -/
theorem later_id_listed_first :
    let second : DmSectorPayload := { hello with messageId := ⟨Arr.fill 16 8⟩, createdAtMs := 4 }
    let db := runWrites (fun _ => Arr.fill 32 0) ZeroDb.empty
      [.processInboundDm stranger (DmSectorPayload.codec.enc hello) 10 10 (sectorNo 0) 10,
        .processInboundDm stranger (DmSectorPayload.codec.enc second) 11 11 (sectorNo 1) 11]
    (db.run (history hello.conversationId none 10)).1 = .ok (some [second.toMessage 11, hello.toMessage 10]) ∧
      ¬ NewestFirst db := by
  intro second db
  have hpage : (db.run (history hello.conversationId none 10)).1 = .ok (some [second.toMessage 11, hello.toMessage 10]) := by
    decide +kernel
  refine ⟨hpage, fun h => ?_⟩
  obtain ⟨page, hrun, -, hdesc⟩ := h hello.conversationId none 10
  rw [hpage] at hrun
  cases hrun
  exact absurd (hdesc _ rfl) (by decide)

end ZeroSdk.Dm
