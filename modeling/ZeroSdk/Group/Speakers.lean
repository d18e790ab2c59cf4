/-
Who speaks in a group? `send_message` looks its sender up among the members.
`receive_message` loads the manifest as well but does not look at it: a
message from anybody is stored and listed (`stranger_speaks`).

`only_members_speak_iff` says exactly when the messages of a group are from
people who were members at some point: as long as every message received
under a new id is.
-/
import Mathlib.Data.List.Infix
import ZeroSdk.Group.Log

namespace ZeroSdk.Group

/-- A message `get_message` or `list_messages` returns for the group. -/
def Returned (db : ZeroDb) (g : GroupId) (m : GroupMessage) : Prop :=
  (∃ id, (db.run (getMessage g id)).1 = .ok (some m)) ∨
    ∃ before limit l, (db.run (listMessages g before limit)).1 = .ok l ∧ m ∈ l

/-- A member in the manifest stored for the group. -/
def IsMember (db : ZeroDb) (g : GroupId) (who : IdentityId) : Prop :=
  ∃ man, manifestAt db g = .ok man ∧ ∃ m ∈ man.members.val, m.identityId = who

/-- A member at some point of the run. -/
def WasMember (db : ZeroDb) (ops : List Op) (g : GroupId) (who : IdentityId) : Prop :=
  ∃ pre, pre <+: ops ∧ IsMember (runOps db pre).1 g who

/-- Every message that can be read after the run is from somebody who was a
member at some point of it. -/
def OnlyMembersSpeak (db : ZeroDb) (ops : List Op) : Prop :=
  ∀ g m, Returned (runOps db ops).1 g m → WasMember db ops g m.senderIdentity

/-- The message is one `receive_message` stores: its group is known and its
id is new. -/
def IsNews (db : ZeroDb) (msg : GroupMessage) : Prop :=
  (∃ man, manifestAt db msg.groupId = .ok man) ∧ db.get .groups (makeMsgKey msg.groupId msg.id) = none

theorem WasMember.mono {db : ZeroDb} {ops ops' : List Op} {g : GroupId} {who : IdentityId} (h : WasMember db ops g who)
    (hpre : ops <+: ops') : WasMember db ops' g who := by
  obtain ⟨pre, hp, hm⟩ := h
  exact ⟨pre, hp.trans hpre, hm⟩

/-! ## What is stored -/

/-- Under the message prefix of a group are messages of the group, each from
somebody with `P`. -/
def From (P : GroupId → IdentityId → Prop) (db : ZeroDb) : Prop :=
  ∀ g k v, makeMsgPrefix g <+: k → db.get .groups k = some v →
    ∃ m : GroupMessage, v = GroupMessage.codec.enc m ∧ P g m.senderIdentity

variable {P : GroupId → IdentityId → Prop} {db : ZeroDb}

theorem From.mono {Q : GroupId → IdentityId → Prop} (h : From P db) (hpq : ∀ g i, P g i → Q g i) : From Q db := by
  intro g k v hk hv
  obtain ⟨m, hm, hp⟩ := h g k v hk hv
  exact ⟨m, hm, hpq _ _ hp⟩

theorem From.put_manifest (h : From P db) (g : GroupId) (v : Bytes) : From P (db.put .groups g.bytes.val v) := by
  intro g' k v' hk hv
  rw [ZeroDb.get_put_of_ne] at hv
  · exact h g' k v' hk hv
  · rintro rfl
    exact not_msgPrefix_groupKey g' g hk

theorem From.put_message (h : From P db) {g : GroupId} {m : GroupMessage} (hp : P g m.senderIdentity)
    (id : GroupMessageId) : From P (db.put .groups (makeMsgKey g id) (GroupMessage.codec.enc m)) := by
  intro g' k v hk hv
  by_cases heq : k = makeMsgKey g id
  · subst heq
    rw [ZeroDb.get_put_self] at hv
    cases hv
    rw [makeMsgPrefix_isPrefix_iff.mp hk]
    exact ⟨m, rfl, hp⟩
  · rw [ZeroDb.get_put_of_ne _ _ _ heq] at hv
    exact h g' k v hk hv

theorem From.receipt (h : From P db) (r : GroupReceiptPayload) : From P (db.run (processReceipt r)).2 := by
  cases hv : db.get .groups (makeMsgKey r.groupId r.messageId) with
  | none =>
    rw [run_processReceipt_none hv]
    exact h
  | some v =>
    obtain ⟨m, rfl, hp⟩ := h r.groupId _ v (makeMsgPrefix_isPrefix_iff.mpr rfl) hv
    rw [run_processReceipt_some hv]
    split
    · exact h.put_message (m := { m with status := r.status }) hp _
    · exact h

/-- One call: what it sends is from a member, what it receives is from
somebody with `P`. -/
theorem From.step (h : From P db) (op : Op) (hmember : ∀ g who, IsMember db g who → P g who)
    (hnews : ∀ msg, op = .receive msg → IsNews db msg → P msg.groupId msg.senderIdentity) : From P (op.step db) := by
  cases op with
  | create label founders g ts =>
    rcases createGroup_cases db label founders g ts with hdb | ⟨man, hdb⟩
    · rw [Op.step, hdb]
      exact h
    · rw [Op.step, hdb]
      exact h.put_manifest g _
  | member g call =>
    simp only [Op.step, Call.prog_eq]
    rcases updateManifest_cases (Prod.mk.eta (p := db.run (updateManifest g call.decision))).symm with
      ⟨-, -, hdb⟩ | ⟨-, -, -, -, hdb⟩ | ⟨_, man, -, -, -, hdb⟩
    · rw [hdb]
      exact h
    · rw [hdb]
      exact h
    · rw [hdb]
      exact h.put_manifest g _
  | send g sender machine text id ts =>
    rcases sendMessage_cases db g sender machine text id ts with ⟨e, hrun⟩ | ⟨man, hman, hmem, hrun⟩
    · rw [Op.step, hrun]
      exact h
    · rw [Op.step, hrun]
      exact h.put_message (m := ⟨id, g, sender, machine, text, man.mlsEpoch, ts, .sent⟩)
        (hmember g sender ⟨man, hman, hmem⟩) id
  | receive msg =>
    rcases receiveMessage_cases db msg with ⟨e, hrun⟩ | ⟨-, hrun⟩ | ⟨hknown, hnone, hrun⟩
    · rw [Op.step, hrun]
      exact h
    · rw [Op.step, hrun]
      exact h
    · rw [Op.step, hrun]
      exact h.put_message (hnews msg rfl ⟨hknown, hnone⟩) msg.id
  | receipt r => exact h.receipt r
  | markDelivered g id who machine now =>
    simp only [Op.step, Group.markDelivered, run_markStatus]
    exact h.receipt ⟨id, g, who, machine, .delivered, now⟩
  | markRead g id who machine now =>
    simp only [Op.step, Group.markRead, run_markStatus]
    exact h.receipt ⟨id, g, who, machine, .read, now⟩

/-- The messages a listing of the group decodes. -/
theorem From.stores (h : From P db) (g : GroupId) :
    ∃ msgs, Stores db g msgs ∧ ∀ m ∈ msgs, P g m.senderIdentity := by
  have hall : ∀ e ∈ (db.cf .groups).select (makeMsgPrefix g).isPrefixOf,
      ∃ m : GroupMessage, e.2 = GroupMessage.codec.enc m ∧ P g m.senderIdentity := by
    intro e he
    obtain ⟨hv, hk⟩ := OrdMap.mem_select.mp he
    exact h g e.1 e.2 (List.isPrefixOf_iff_prefix.mp hk) hv
  unfold Stores
  generalize (db.cf .groups).select (makeMsgPrefix g).isPrefixOf = entries at hall ⊢
  induction entries with
  | nil => exact ⟨[], rfl, fun m hm => absurd hm List.not_mem_nil⟩
  | cons e entries ih =>
    obtain ⟨m, hm, hp⟩ := hall e List.mem_cons_self
    obtain ⟨msgs, hmsgs, hps⟩ := ih fun e he => hall e (List.mem_cons_of_mem _ he)
    refine ⟨m :: msgs, by rw [List.map_cons, List.map_cons, hm, hmsgs], fun m' hm' => ?_⟩
    rcases List.mem_cons.mp hm' with rfl | hm'
    · exact hp
    · exact hps m' hm'

theorem From.returned (h : From P db) {g : GroupId} {m : GroupMessage} (hm : Returned db g m) :
    P g m.senderIdentity := by
  rcases hm with ⟨id, hget⟩ | ⟨before, limit, l, hlist, hm⟩
  · simp only [getMessage, Prog.run_bind, Prog.run_mapErr, run_getRaw, Except.mapError] at hget
    cases hv : db.get .groups (makeMsgKey g id) with
    | none =>
      rw [hv] at hget
      cases hget
    | some v =>
      obtain ⟨m', rfl, hp⟩ := h g _ v (makeMsgPrefix_isPrefix_iff.mpr rfl) hv
      rw [hv] at hget
      simp only [Prog.run_bind, Prog.run_lift, decodeMessage_enc] at hget
      cases hget
      exact hp
  · obtain ⟨msgs, hstores, hp⟩ := h.stores g
    rw [run_listMessages hstores] at hlist
    cases hlist
    have hin := (List.perm_insertionSort msgOrder _).mem_iff.mp (List.mem_of_mem_take hm)
    exact hp m (List.mem_filter.mp hin).1

/-! ## Runs -/

/-- Every message received under a new id is from somebody who was a member
by then. -/
def NewsFromMembers (db : ZeroDb) (ops : List Op) : Prop :=
  ∀ pre msg post, ops = pre ++ .receive msg :: post → IsNews (runOps db pre).1 msg →
    WasMember db pre msg.groupId msg.senderIdentity

theorem run_from (h : db.cf .groups = .empty) {ops : List Op} (hnews : NewsFromMembers db ops) :
    From (WasMember db ops) (runOps db ops).1 := by
  induction ops using List.reverseRecOn with
  | nil =>
    intro g k v _ hv
    rw [runOps, List.foldl_nil, ZeroDb.get, h] at hv
    cases hv
  | append_singleton ops op ih =>
    have hpre : NewsFromMembers db ops := by
      intro pre msg post hops
      exact hnews pre msg (post ++ [op]) (by rw [hops]; simp)
    rw [runOps_concat]
    refine From.step ((ih hpre).mono fun g who hw => hw.mono (List.prefix_append _ _)) op (fun g who hm => ?_) ?_
    · exact ⟨ops, List.prefix_append _ _, hm⟩
    · rintro msg rfl hn
      exact (hnews ops msg [] rfl hn).mono (List.prefix_append _ _)

theorem manifestAt_receive (db : ZeroDb) (msg : GroupMessage) (g : GroupId) :
    manifestAt (Op.step db (.receive msg)) g = manifestAt db g := by
  rcases receiveMessage_cases db msg with ⟨e, hrun⟩ | ⟨-, hrun⟩ | ⟨-, -, hrun⟩
  · rw [Op.step, hrun]
  · rw [Op.step, hrun]
  · rw [Op.step, hrun, manifestAt_eq, manifestAt_eq, ZeroDb.get_put_of_ne]
    intro hk
    exact not_msgPrefix_groupKey msg.groupId g (hk ▸ makeMsgPrefix_isPrefix_iff.mpr rfl)

theorem WasMember.of_receive {ops : List Op} {msg : GroupMessage} {g : GroupId} {who : IdentityId}
    (h : WasMember db (ops ++ [.receive msg]) g who) : WasMember db ops g who := by
  obtain ⟨pre, hpre, man, hman, hm⟩ := h
  rcases List.prefix_concat_iff.mp hpre with rfl | hpre
  · rw [runOps_concat, manifestAt_receive] at hman
    exact ⟨ops, List.prefix_rfl, man, hman, hm⟩
  · exact ⟨pre, hpre, man, hman, hm⟩

theorem IsNews.returned {msg : GroupMessage} (h : IsNews db msg) :
    Returned (Op.step db (.receive msg)) msg.groupId msg := by
  obtain ⟨⟨man, hman⟩, hnone⟩ := h
  refine .inl ⟨msg.id, ?_⟩
  rcases receiveMessage_cases db msg with ⟨e, hrun⟩ | ⟨hsome, -⟩ | ⟨-, -, hrun⟩
  · simp only [receiveMessage, Prog.run_bind, run_getManifest, hman, Prog.run_mapErr, run_getRaw, Except.mapError,
      hnone] at hrun
    cases hrun
  · rw [hnone] at hsome
    cases hsome
  · rw [Op.step, hrun]
    simp only [getMessage, Prog.run_bind, Prog.run_mapErr, run_getRaw, Except.mapError, ZeroDb.get_put_self,
      Prog.run_lift, decodeMessage_enc, Prog.run_pure]

/-- **Who speaks.** Over a run of group operations from an empty store, every
message that can be read at any point is from somebody who was a member of
its group by then, exactly if every message received under a new id is. -/
theorem only_members_speak_iff (h : db.cf .groups = .empty) (ops : List Op) :
    (∀ pre, pre <+: ops → OnlyMembersSpeak db pre) ↔ NewsFromMembers db ops := by
  constructor
  · rintro hall pre msg post rfl hn
    have hspeak := hall (pre ++ [.receive msg]) ⟨post, by simp⟩ msg.groupId msg
    rw [runOps_concat] at hspeak
    exact (hspeak hn.returned).of_receive
  · rintro hnews pre ⟨post, rfl⟩ g m hm
    refine (run_from h fun pre' msg post' hops => ?_).returned hm
    exact hnews pre' msg (post' ++ post) (by rw [hops]; simp)

/-- A group is made by `id(1)`, and a message from `sender` for it comes in. -/
def heard (sender : IdentityId) : List Op :=
  [.create Str.empty (Vec.singleton ⟨Arr.fill 16 1⟩) ⟨Arr.fill 16 9⟩ 5,
    .receive ⟨⟨Arr.fill 16 7⟩, ⟨Arr.fill 16 9⟩, sender, ⟨Arr.fill 16 3⟩, Str.empty, 0, 6, .sent⟩]

/-- The founder's message, from another machine of theirs. -/
theorem only_members_speak_founder :
    let ops := heard ⟨Arr.fill 16 1⟩
    ((runOps ZeroDb.empty ops).1.run (getMessage ⟨Arr.fill 16 9⟩ ⟨Arr.fill 16 7⟩)).1.toOption.isSome ∧
      ∀ pre, pre <+: ops → OnlyMembersSpeak ZeroDb.empty pre := by
  intro ops
  refine ⟨by decide +kernel, (only_members_speak_iff rfl ops).mpr ?_⟩
  intro pre msg post hops _
  simp only [ops, heard] at hops
  rcases pre with _ | ⟨o₁, _ | ⟨o₂, pre⟩⟩
  · cases hops
  · cases hops
    refine ⟨_, List.prefix_rfl, ?_⟩
    exact ⟨_, manifestAt_put_self _ _ _, ⟨⟨Arr.fill 16 1⟩, ⟨Arr.fill 16 0⟩, .owner, 5⟩, by decide +kernel, rfl⟩
  · have hlen := congrArg List.length hops
    simp at hlen

/-- A stranger's message is stored and read as any other. -/
theorem stranger_speaks : ¬ OnlyMembersSpeak ZeroDb.empty (heard ⟨Arr.fill 16 2⟩) := by
  intro h
  have hret : Returned (runOps ZeroDb.empty (heard ⟨Arr.fill 16 2⟩)).1 ⟨Arr.fill 16 9⟩
      ⟨⟨Arr.fill 16 7⟩, ⟨Arr.fill 16 9⟩, ⟨Arr.fill 16 2⟩, ⟨Arr.fill 16 3⟩, Str.empty, 0, 6, .sent⟩ :=
    .inl ⟨⟨Arr.fill 16 7⟩, by decide +kernel⟩
  obtain ⟨pre, hpre, man, hman, m, hm, hid⟩ := h _ _ hret
  -- in no manifest of the run
  have hnot : ∀ pre ∈ (heard ⟨Arr.fill 16 2⟩).inits,
      (manifestAt (runOps ZeroDb.empty pre).1 ⟨Arr.fill 16 9⟩).toOption.all
        fun man => man.members.val.all fun m => m.identityId ≠ ⟨Arr.fill 16 2⟩ := by
    decide +kernel
  have := hnot pre ((List.mem_inits _ _).mpr hpre)
  rw [hman] at this
  simp only [Except.toOption, Option.all_some, List.all_eq_true, decide_eq_true_eq] at this
  exact this m hm hid

end ZeroSdk.Group
