/-
The scan of `history` exists twice: `paginate_messages` is a copy of it that
has drifted in two places. Its `increment_bytes` puts the last carry at the
end and not in front, which no message prefix ever reaches: on bytes that are
not all `0xFF` the two copies are one function, and it gives the upper end of
the keys with a prefix (`incrementBytes_bounds_range`). And it returns nothing when
the limit is 0, where `history` looks at its limit only after it has taken a
message and so returns one (`history_zero`). From limit 1 on the two are the
same program (`paginateMessages_eq`), so `pages_agree_iff` is about limit 0.
-/
import ZeroSdk.Dm.Failures
import ZeroSdk.Dm.History

namespace ZeroSdk.Dm
open DmService

/-- `increment_bytes` of the copy: a carry out of the first byte becomes a
byte at the end. -/
def Paginate.incrementBytes (v : Bytes) : Bytes :=
  match incrementLoop v with
  | (l, false) => l
  | (l, true) => l ++ [1]

/-- `paginate_messages`. Its loop is that of `history`. -/
def paginateMessages (conversationId : ConversationId) (before : Option MessageId) (limit : Nat) :
    DbProg DmError (Option (List Message)) := do
  if limit == 0 then
    pure (some [])
  else
    let pre := makeMsgPrefix conversationId
    let seekKey := match before with
      | some id => makeMsgKey conversationId id
      | none => Paginate.incrementBytes pre
    let items ← iteratorCf .chains (.reverse seekKey)
    if HasCapacity limit then
      let results ← Prog.lift (historyLoop pre seekKey before limit [] items)
      pure (some results)
    else
      pure none

/-! ## The two increments -/

theorem Paginate.incrementBytes_eq {p : Bytes} (h : (incrementLoop p).2 = false) :
    Paginate.incrementBytes p = (incrementLoop p).1 := by
  unfold Paginate.incrementBytes
  rcases hl : incrementLoop p with ⟨l, carry⟩
  rw [hl] at h
  cases h
  rfl

/-- The copies differ only where the carry stops at no byte. -/
theorem Paginate.incrementBytes_same {p : Bytes} (h : ∃ b ∈ p, b < 0xFF) :
    Paginate.incrementBytes p = Dm.incrementBytes p := by
  have hstops := incrementLoop_stops h
  rw [Paginate.incrementBytes_eq hstops, Dm.incrementBytes_eq hstops]

/-- **`increment_bytes` bounds a prefix range.** For bytes that are not all
`0xFF`, the keys that start with them are at least them and below their
increment, every key that is both and no shorter starts with them, and both
copies return the same increment. -/
theorem incrementBytes_bounds_range {p : Bytes} (h : ∃ b ∈ p, b < 0xFF) :
    (∀ k, p <+: k → p ≤ k ∧ k < incrementBytes p) ∧
      (∀ k, p.length ≤ k.length → p ≤ k → k < incrementBytes p → p <+: k) ∧
      Paginate.incrementBytes p = incrementBytes p := by
  have hnext := incrementBytes_next h
  refine ⟨fun k hk => ?_, fun k hlen hge hlt => ?_, Paginate.incrementBytes_same h⟩
  · exact ⟨Bytes.prefix_le hk, hnext.lt_of_isPrefix hk⟩
  · exact hnext.isPrefix_of_lt hlen hge hlt

/-- The carry goes through the last byte and stops at the one before. -/
theorem incrementBytes_bounds_range_carry :
    incrementBytes [0x64, 0xFF] = [0x65, 0x00] ∧
      (∀ k, [0x64, 0xFF] <+: k → [0x64, 0xFF] ≤ k ∧ k < incrementBytes [0x64, 0xFF]) ∧
      (∀ k, 2 ≤ k.length → [0x64, 0xFF] ≤ k → k < incrementBytes [0x64, 0xFF] → [0x64, 0xFF] <+: k) ∧
      Paginate.incrementBytes [0x64, 0xFF] = incrementBytes [0x64, 0xFF] :=
  ⟨by decide, incrementBytes_bounds_range ⟨0x64, List.mem_cons_self, by decide⟩⟩

/-! ## From limit 1 on -/

theorem paginateMessages_eq (c : ConversationId) (before : Option MessageId) {limit : Nat} (h : limit ≠ 0) :
    paginateMessages c before limit = history c before limit := by
  have hne : (limit == 0) = false := beq_false_of_ne h
  cases before with
  | none =>
    have hsame := Paginate.incrementBytes_same (makeMsgPrefix_stops c)
    simp only [paginateMessages, history, hne, Bool.false_eq_true, if_false, hsame]
  | some id => simp only [paginateMessages, history, hne, Bool.false_eq_true, if_false]

/-! ## At limit 0 -/

/-- The loop compares with its limit after a message: 0 stops it where 1 does. -/
theorem historyLoop_zero (pre seekKey : Bytes) (before : Option MessageId)
    (items : List (Except RocksError (Bytes × Bytes))) :
    historyLoop pre seekKey before 0 [] items = historyLoop pre seekKey before 1 [] items := by
  induction items with
  | nil => rfl
  | cons item items ih =>
    cases item with
    | error e => rfl
    | ok e =>
      obtain ⟨k, v⟩ := e
      simp only [historyLoop, ih]
      rfl

theorem history_zero (c : ConversationId) (before : Option MessageId) : history c before 0 = history c before 1 := by
  unfold history
  have hzero : HasCapacity 0 := by decide
  have hone : HasCapacity 1 := by decide
  simp only [historyLoop_zero, if_pos hzero, if_pos hone]

/-! ## The pages -/

section Pages
variable {db : ZeroDb} {c : ConversationId}

/-- The two paginators return the same, and at most `limit` messages. -/
def PagesAgree (db : ZeroDb) (c : ConversationId) (before : Option MessageId) (limit : Nat) : Prop :=
  (db.run (history c before limit)).1 = (db.run (paginateMessages c before limit)).1 ∧
    ∀ page, (db.run (history c before limit)).1 = .ok (some page) → page.length ≤ limit

/-- Every stored message of the conversation is at the cursor or after it. -/
def NoneBefore (db : ZeroDb) (c : ConversationId) (before : Option MessageId) : Prop :=
  ∀ id m, messageAt db c id = some m → ∃ b, before = some b ∧ b ≤ id

theorem page_length_le (hw : WellKeyed db) (before : Option MessageId) {limit : Nat} (h : 1 ≤ limit)
    {page : List Message} (hpage : (db.run (history c before limit)).1 = .ok (some page)) : page.length ≤ limit := by
  obtain ⟨l, hl, -, hc, -⟩ := hw.messages c
  by_cases hcap : HasCapacity limit
  · rw [run_history hw hl hc h hcap before] at hpage
    cases hpage
    exact List.length_take_le _ _
  · rw [run_history_overflow db c before hcap] at hpage
    cases hpage

/-- At limit 0 `history` still returns a message if one is before the cursor. -/
theorem history_zero_empty_iff (hw : WellKeyed db) (before : Option MessageId) :
    (db.run (history c before 0)).1 = .ok (some []) ↔ NoneBefore db c before := by
  obtain ⟨l, hl, -, hc, hmem⟩ := hw.messages c
  rw [history_zero, run_history hw hl hc le_rfl (by decide) before, Except.ok.injEq, Option.some.injEq, Paging.page,
    List.take_eq_nil_iff, or_iff_right Nat.one_ne_zero]
  unfold NoneBefore Paging.below
  cases before with
  | none =>
    rw [List.reverse_eq_nil_iff]
    constructor
    · intro hnil id m hm
      rw [hmem, hnil] at hm
      exact absurd hm.1 List.not_mem_nil
    · intro h
      refine List.eq_nil_iff_forall_not_mem.mpr fun m hm => ?_
      obtain ⟨b, hb, -⟩ := h m.id m ((hmem m.id m).mpr ⟨hm, rfl⟩)
      cases hb
  | some b =>
    rw [List.filter_eq_nil_iff]
    constructor
    · intro h id m hm
      obtain ⟨hml, rfl⟩ := (hmem id m).mp hm
      refine ⟨b, rfl, not_lt.mp fun hlt => h m (List.mem_reverse.mpr hml) (decide_eq_true hlt)⟩
    · intro h m hm hlt
      obtain ⟨b', hb', hle⟩ := h m.id m ((hmem m.id m).mpr ⟨List.mem_reverse.mp hm, rfl⟩)
      cases hb'
      exact absurd (of_decide_eq_true hlt) (not_lt.mpr hle)

/-- **When the two paginators agree.** In every state the services can bring
the database into, `history` and `paginate_messages` return the same page, of
at most `limit` messages, or panic alike, exactly if the limit is not 0 or the
conversation has no message before the cursor. -/
theorem pages_agree_iff {blake3 : Bytes → Arr 32} (hr : Reachable blake3 db) (c : ConversationId)
    (before : Option MessageId) (limit : Nat) : PagesAgree db c before limit ↔ limit ≠ 0 ∨ NoneBefore db c before := by
  have hw := hr.ownKeys.wellKeyed
  rcases Nat.eq_zero_or_pos limit with rfl | hpos
  · have hpaginate : (db.run (paginateMessages c before 0)).1 = .ok (some []) := rfl
    rw [or_iff_right (fun h => h rfl), ← history_zero_empty_iff hw, PagesAgree, hpaginate]
    refine and_iff_left_of_imp fun hempty page hpage => ?_
    rw [hempty] at hpage
    cases hpage
    exact le_rfl
  · refine iff_of_true ⟨?_, fun page hpage => page_length_le hw before hpos hpage⟩ (.inl (Nat.ne_of_gt hpos))
    rw [paginateMessages_eq c before (Nat.ne_of_gt hpos)]

end Pages

/-- One message and limit 1. -/
theorem pages_agree_iff_one : PagesAgree talking talk.conversationId none 1 :=
  (pages_agree_iff (talking_reachable fun _ => Arr.fill 32 0) _ _ _).mpr (.inl Nat.one_ne_zero)

/-- One message and limit 0: `history` returns it. -/
theorem limit_zero_returns_message :
    Reachable (fun _ => Arr.fill 32 0) talking ∧
      (talking.run (history talk.conversationId none 0)).1 = .ok (some [heard]) ∧
      (talking.run (paginateMessages talk.conversationId none 0)).1 = .ok (some []) ∧
      ¬ PagesAgree talking talk.conversationId none 0 := by
  have hpage : (talking.run (history talk.conversationId none 0)).1 = .ok (some [heard]) := by decide +kernel
  refine ⟨talking_reachable _, hpage, rfl, fun h => ?_⟩
  exact absurd (h.2 _ hpage) (by decide)

end ZeroSdk.Dm
