/-
A group on several machines. Each has a store of its own, on which any call
may be made and any manifest persisted; what it has stored of a message it can
ship to the others, and the receipts that `mark_delivered` and `mark_read`
return go out to them. What was ever shipped or returned stays in flight:
`receive_message` and `process_receipt` are given nothing else, but that any
number of times, in any order, late or never.

The machines simulate the replicas of `Lib.Replicated` (`sim_step`): messages
are the items, receipts the marks, and a message is made where `send_message`
stores it.
-/
import ZeroSdk.Group.Log
import ZeroSdk.Group.Merge
import ZeroSdk.Lib.Replicated

namespace ZeroSdk.Group

/-! ## Machines -/

/-- The receipt the call returns. -/
def Op.emitted (db : ZeroDb) : Op → List GroupReceiptPayload
  | .markDelivered g id who machine now =>
    match (db.run (Group.markDelivered g id who machine now)).1 with
    | .ok (some r) => [r]
    | _ => []
  | .markRead g id who machine now =>
    match (db.run (Group.markRead g id who machine now)).1 with
    | .ok (some r) => [r]
    | _ => []
  | _ => []

/-- What a machine does: a call on its store, `persist_manifest` of a manifest
it has from elsewhere, or shipping a message it has stored. -/
inductive Action
  | call (op : Op)
  | persist (man : GroupManifest)
  | ship (groupId : GroupId) (id : GroupMessageId)

/-- The stores, and the messages and receipts in flight. -/
structure World (ι : Type) where
  dbs : ι → ZeroDb
  msgs : List GroupMessage
  receipts : List GroupReceiptPayload

/-- Nothing that is not in flight comes in. -/
def World.Offers {ι : Type} (w : World ι) : Op → Prop
  | .receive msg => msg ∈ w.msgs
  | .receipt r => r ∈ w.receipts
  | _ => True

instance World.decidableOffers {ι : Type} (w : World ι) (op : Op) : Decidable (w.Offers op) :=
  match op with
  | .receive msg => inferInstanceAs (Decidable (msg ∈ w.msgs))
  | .receipt r => inferInstanceAs (Decidable (r ∈ w.receipts))
  | .create _ _ _ _ | .member _ _ | .send _ _ _ _ _ _ | .markDelivered _ _ _ _ _ | .markRead _ _ _ _ _ =>
    inferInstanceAs (Decidable True)

section World
variable {ι : Type} [DecidableEq ι]

/-- The store of machine `i` is `db` now. -/
def World.setDb (w : World ι) (i : ι) (db : ZeroDb) : World ι := { w with dbs := Function.update w.dbs i db }

/-- What holds of a store after machine `i` has changed. -/
theorem World.setDb_cases {w : World ι} {Q : ZeroDb → Prop} {i j : ι} {db : ZeroDb} (hi : j = i → Q db)
    (hother : j ≠ i → Q (w.dbs j)) : Q ((w.setDb i db).dbs j) := by
  simp only [World.setDb, Function.update_apply]
  split
  · next hj => exact hi hj
  · next hj => exact hother hj

/-- A step of machine `i`. -/
def World.step (w : World ι) (i : ι) : Action → World ι
  | .call op =>
    if w.Offers op then { w.setDb i (op.step (w.dbs i)) with receipts := w.receipts ++ op.emitted (w.dbs i) } else w
  | .persist man => w.setDb i ((w.dbs i).run (persistManifest man)).2
  | .ship g id =>
    match ((w.dbs i).run (getMessage g id)).1 with
    | .ok (some m) => { w with msgs := w.msgs ++ [m] }
    | _ => w

def World.run (w : World ι) (acts : List (ι × Action)) : World ι := acts.foldl (fun w act => w.step act.1 act.2) w

theorem World.run_append (w : World ι) (acts more : List (ι × Action)) : w.run (acts ++ more) = (w.run acts).run more :=
  List.foldl_append ..

end World

/-- No machine has a message, and nothing is in flight. -/
structure World.Fresh {ι : Type} (w : World ι) : Prop where
  dbs : ∀ i, NoMessages (w.dbs i)
  msgs : w.msgs = []
  receipts : w.receipts = []

/-- The action is a `send_message` that stores `m`, by a member of the group as
the machine has it. -/
def Action.Sends (db : ZeroDb) (m : GroupMessage) : Action → Prop
  | .call (.send g sender machine text id ts) =>
    ∃ man, manifestAt db g = .ok man ∧ (∃ mem ∈ man.members.val, mem.identityId = sender) ∧
      m = ⟨id, g, sender, machine, text, man.mlsEpoch, ts, .sent⟩
  | _ => False

/-- The action is a call that returns the receipt. -/
def Action.Emits (db : ZeroDb) (r : GroupReceiptPayload) : Action → Prop
  | .call op => r ∈ op.emitted db
  | _ => False

/-- The group and id that a `send_message` draws. -/
def Action.draws : Action → Option (GroupId × GroupMessageId)
  | .call (.send g _ _ _ id _) => some (g, id)
  | _ => none

/-- No message id is drawn twice in a group, by whichever machines. -/
def FreshSends {ι : Type} (acts : List (ι × Action)) : Prop :=
  acts.Pairwise fun act act' => ∀ k, act.2.draws = some k → act'.2.draws ≠ some k

/-! ## What the calls do to a log -/

/-- A message's group and id. -/
def GroupMessage.key (m : GroupMessage) : GroupId × GroupMessageId := (m.groupId, m.id)

instance GroupMessageStatus.orderBot : OrderBot GroupMessageStatus where
  bot := .sent
  bot_le s := by cases s <;> decide

theorem GroupMessage.raise_bot (m : GroupMessage) : m.raise ⊥ = m := by
  rw [GroupMessage.raise, max_eq_left bot_le]

theorem GroupMessage.raise_raise (m : GroupMessage) (s t : GroupMessageStatus) :
    (m.raise s).raise t = m.raise (s ⊔ t) := by
  simp only [GroupMessage.raise, max_assoc]

theorem GroupMessage.key_raise (m : GroupMessage) (s : GroupMessageStatus) : (m.raise s).key = m.key := rfl

theorem Log.step_receipt_of_none {log : Log} {g : GroupId} {id : GroupMessageId} (h : log g id = none)
    (s : GroupMessageStatus) : log.step (.receipt g id s) = log := by
  funext g' id'
  simp only [Log.step]
  split
  · next heq =>
    obtain ⟨rfl, rfl⟩ := heq
    rw [h]
    rfl
  · rfl

theorem run_getMessage {db : ZeroDb} {log : Log} (h : Holds db log) (g : GroupId) (id : GroupMessageId) :
    (db.run (getMessage g id)).1 = .ok (log g id) := by
  simp only [getMessage, Prog.run_bind, Prog.run_mapErr, run_getRaw, Except.mapError, h.content]
  cases log g id with
  | none => rfl
  | some m => simp only [Option.map_some, decodeMessage_enc, Prog.run_lift, Prog.run_bind, Prog.run_pure]

theorem processReceipt_unchanged {db : ZeroDb} {log : Log} (h : Holds db log) {r : GroupReceiptPayload} :
    (db.run (processReceipt r)).2 = db ↔ ∀ m, log r.groupId r.messageId = some m → r.status ≤ m.status := by
  have hkey := h.content r.groupId r.messageId
  cases hm : log r.groupId r.messageId with
  | none =>
    rw [hm, Option.map_none] at hkey
    rw [run_processReceipt_none hkey]
    exact iff_of_true rfl fun m hm => by cases hm
  | some m =>
    rw [hm, Option.map_some] at hkey
    rw [run_processReceipt_some hkey]
    by_cases hlt : m.status < r.status
    · rw [if_pos (isForwardTransition_iff.mpr hlt)]
      refine iff_of_false (fun hsame => ?_) fun hle => absurd (hle m rfl) (not_le.mpr hlt)
      -- what is stored would have the new status already
      have hread := congrArg (fun db => db.get .groups (makeMsgKey r.groupId r.messageId)) hsame
      simp only [ZeroDb.get_put_self, hkey, Option.some.injEq] at hread
      have hmsg := congrArg GroupMessage.status (Postcard.enc_injective GroupMessage.codec hread)
      exact absurd hmsg (ne_of_gt hlt)
    · rw [if_neg (mt isForwardTransition_iff.mp hlt)]
      refine iff_of_true rfl fun m' hm' => ?_
      cases hm'
      exact not_lt.mp hlt

theorem run_markStatus_fst {db : ZeroDb} {log : Log} (h : Holds db log) (g : GroupId) (id : GroupMessageId)
    (who : IdentityId) (machine : MachineId) (s : GroupMessageStatus) (now : UInt64) :
    (db.run (markStatus g id who machine s now)).1 =
      .ok (if ∃ m, log g id = some m ∧ m.status < s then some ⟨id, g, who, machine, s, now⟩ else none) := by
  have hkey := h.content g id
  rw [markStatus]
  cases hm : log g id with
  | none =>
    rw [hm, Option.map_none] at hkey
    rw [ZeroDb.run_bind_ok (run_processReceipt_none (r := ⟨id, g, who, machine, s, now⟩) hkey)]
    simp
  | some m =>
    rw [hm, Option.map_some] at hkey
    have hrun := run_processReceipt_some (r := ⟨id, g, who, machine, s, now⟩) hkey
    by_cases hlt : m.status < s
    · rw [if_pos (isForwardTransition_iff.mpr hlt)] at hrun
      rw [ZeroDb.run_bind_ok hrun]
      simp [hlt]
    · rw [if_neg (mt isForwardTransition_iff.mp hlt)] at hrun
      rw [ZeroDb.run_bind_ok hrun]
      simp [hlt]

/-! ## The machines simulate the replicas -/

abbrev GroupNet (ι : Type) := Replicated.Net ι (GroupId × GroupMessageId) GroupMessage GroupMessageStatus

abbrev GroupNet.Inv {ι : Type} (n : GroupNet ι) : Prop := Replicated.Inv GroupMessage.key GroupMessage.raise n

/-- What replica `i` holds, as a log. -/
def logOf {ι : Type} (n : GroupNet ι) (i : ι) : Log := fun g id => n.held i (g, id)

structure Sim {ι : Type} (w : World ι) (n : GroupNet ι) : Prop where
  holds : ∀ i, Holds (w.dbs i) (logOf n i)
  copies : n.copies = w.msgs
  marks : n.marks = w.receipts.map fun r => ((r.groupId, r.messageId), r.status)

section Simulation
variable {ι : Type} [DecidableEq ι] {w : World ι} {n n' : GroupNet ι} {i : ι}

theorem logOf_put_other (n : GroupNet ι) (m : GroupMessage) {j : ι} (h : j ≠ i) :
    logOf (n.put GroupMessage.key i m) j = logOf n j := by
  funext g id
  simp only [logOf, Replicated.Net.held_put, h, false_and, if_false]

theorem GroupMessage.eq_key_iff {m : GroupMessage} {g : GroupId} {id : GroupMessageId} :
    (g, id) = m.key ↔ m.groupId = g ∧ m.id = id := by
  rw [GroupMessage.key, Prod.mk.injEq, eq_comm, @eq_comm _ id]

theorem logOf_put_stored {m : GroupMessage} (h : n.held i m.key = none) :
    logOf (n.put GroupMessage.key i m) i = (logOf n i).step (.stored m) := by
  funext g id
  simp only [logOf, Replicated.Net.held_put, true_and, Log.step, GroupMessage.eq_key_iff]
  split
  · next hk =>
    rw [GroupMessage.eq_key_iff.mpr hk, h]
  · cases n.held i (g, id) <;> rfl

theorem logOf_put_raise {m : GroupMessage} (h : n.held i m.key = some m) (s : GroupMessageStatus) :
    logOf (n.put GroupMessage.key i (m.raise s)) i = (logOf n i).step (.receipt m.groupId m.id s) := by
  funext g id
  simp only [logOf, Replicated.Net.held_put, true_and, Log.step, GroupMessage.key_raise, GroupMessage.eq_key_iff]
  split
  · next hk =>
    rw [GroupMessage.eq_key_iff.mpr hk, h]
    rfl
  · rfl

theorem Sim.setDb (h : Sim w n) {db : ZeroDb} (hdb : Holds db (logOf n' i))
    (hother : ∀ j, j ≠ i → logOf n' j = logOf n j) (j : ι) : Holds ((w.setDb i db).dbs j) (logOf n' j) := by
  refine World.setDb_cases (Q := fun db => Holds db (logOf n' j)) (fun hj => ?_) fun hj => ?_
  · rw [hj]
    exact hdb
  · rw [hother j hj]
    exact h.holds j

theorem Sim.same (h : Sim w n) {db : ZeroDb} (hdb : Holds db (logOf n i)) : Sim (w.setDb i db) n :=
  ⟨h.setDb hdb fun _ _ => rfl, h.copies, h.marks⟩

theorem Sim.handled (h : Sim w n) (r : GroupReceiptPayload) {m : GroupMessage}
    (hm : n.held i (r.groupId, r.messageId) = some m) :
    Sim (w.setDb i ((w.dbs i).run (processReceipt r)).2) (n.put GroupMessage.key i (m.raise r.status)) := by
  obtain ⟨hg, hid⟩ := (h.holds i).own r.groupId r.messageId m hm
  refine ⟨h.setDb ?_ fun j hj => logOf_put_other n _ hj, h.copies, h.marks⟩
  rw [← hg, ← hid] at hm
  rw [logOf_put_raise hm, hg, hid]
  exact (h.holds i).receipt r

theorem Sim.ignored (h : Sim w n) (r : GroupReceiptPayload) (hnone : n.held i (r.groupId, r.messageId) = none) :
    Sim (w.setDb i ((w.dbs i).run (processReceipt r)).2) n := by
  have hrec := (h.holds i).receipt r
  rw [Log.step_receipt_of_none hnone] at hrec
  exact h.same hrec

/-- Where an item of the next state was made: it was there before, or the
action sends it. -/
def MadeBy (w : World ι) (n n' : GroupNet ι) (i : ι) (act : Action) : Prop :=
  ∀ k p, n'.made k = some p → n.made k = some p ∨ p.1 = i ∧ act.Sends (w.dbs i) p.2 ∧ k = p.2.key

abbrev Simulates (w w' : World ι) (n : GroupNet ι) (i : ι) (act : Action) : Prop :=
  ∃ n', (n' = n ∨ Replicated.Step GroupMessage.key GroupMessage.raise n n') ∧ Sim w' n' ∧ MadeBy w n n' i act

theorem Simulates.stay {w' : World ι} (h : Sim w' n) (i : ι) (act : Action) : Simulates w w' n i act :=
  ⟨n, .inl rfl, h, fun _ _ hk => .inl hk⟩

/-- Marking a message: what is raised is sent, and what is sent was raised. -/
theorem sim_mark (h : Sim w n) (g : GroupId) (id : GroupMessageId) (who : IdentityId) (machine : MachineId)
    (s : GroupMessageStatus) (now : UInt64) (act : Action) {emitted : List GroupReceiptPayload}
    (hemitted : emitted = match ((w.dbs i).run (markStatus g id who machine s now)).1 with
      | .ok (some r) => [r]
      | _ => []) :
    Simulates w { w.setDb i ((w.dbs i).run (markStatus g id who machine s now)).2 with
      receipts := w.receipts ++ emitted } n i act := by
  rw [run_markStatus_fst (h.holds i)] at hemitted
  rw [run_markStatus]
  cases hm : n.held i (g, id) with
  | none =>
    have hno : ¬ ∃ m, logOf n i g id = some m ∧ m.status < s := by
      rintro ⟨m, hm', -⟩
      rw [logOf, hm] at hm'
      cases hm'
    rw [if_neg hno] at hemitted
    subst hemitted
    rw [List.append_nil]
    exact .stay (h.ignored ⟨id, g, who, machine, s, now⟩ hm) i act
  | some m =>
    have hraised := h.handled (i := i) ⟨id, g, who, machine, s, now⟩ hm
    by_cases hlt : m.status < s
    · rw [if_pos ⟨m, hm, hlt⟩] at hemitted
      subst hemitted
      refine ⟨_, .inr (.mark i (g, id) m s hm), ⟨hraised.holds, h.copies, ?_⟩, fun _ _ hk => .inl hk⟩
      rw [List.map_append, h.marks]
      rfl
    · have hno : ¬ ∃ m', logOf n i g id = some m' ∧ m'.status < s := by
        rintro ⟨m', hm', hlt'⟩
        rw [logOf, hm] at hm'
        cases hm'
        exact hlt hlt'
      rw [if_neg hno] at hemitted
      subst hemitted
      rw [List.append_nil, (processReceipt_unchanged (h.holds i)).mpr fun m' hm' => ?_]
      · exact .stay (h.same (h.holds i)) i act
      · rw [logOf, hm] at hm'
        cases hm'
        exact not_lt.mp hlt

theorem Simulates.call {op : Op} {act : Action} (hsim : Simulates w (w.setDb i (op.step (w.dbs i))) n i act)
    (hemitted : op.emitted (w.dbs i) = []) :
    Simulates w { w.setDb i (op.step (w.dbs i)) with receipts := w.receipts ++ op.emitted (w.dbs i) } n i act := by
  rw [hemitted, List.append_nil]
  exact hsim

theorem sim_send (h : Sim w n) (hinv : n.Inv) (g : GroupId) (sender : IdentityId) (machine : MachineId) (text : Str)
    (id : GroupMessageId) (ts : UInt64) (hfresh : n.made (g, id) = none) :
    Simulates w (w.setDb i ((w.dbs i).run (sendMessage g sender machine text id ts)).2) n i
      (.call (.send g sender machine text id ts)) := by
  have hnew : ∀ j, n.held j (g, id) = none := by
    intro j
    cases hm : n.held j (g, id) with
    | none => rfl
    | some m =>
      obtain ⟨hk, _, _, _, hmade, -⟩ := hinv.held j (g, id) m hm
      rw [hk, hfresh] at hmade
      cases hmade
  rcases sendMessage_cases (w.dbs i) g sender machine text id ts with ⟨e, hrun⟩ | ⟨man, hman, hmem, hrun⟩
  · rw [hrun]
    exact .stay (h.same (h.holds i)) i _
  · rw [hrun]
    let m : GroupMessage := ⟨id, g, sender, machine, text, man.mlsEpoch, ts, .sent⟩
    have hholds : Holds ((w.dbs i).put .groups (makeMsgKey g id) (GroupMessage.codec.enc m))
        (logOf (n.put GroupMessage.key i m) i) := by
      rw [logOf_put_stored (hnew i)]
      exact Holds.store (m := m) (h.holds i) (hnew i)
    refine ⟨_, .inr (.make i m hfresh), ⟨h.setDb hholds fun j hj => logOf_put_other n m hj, h.copies, h.marks⟩,
      fun k p hk => ?_⟩
    simp only [Function.update_apply] at hk
    split at hk
    · next hkm =>
      cases hk
      exact .inr ⟨rfl, ⟨man, hman, hmem, rfl⟩, hkm⟩
    · exact .inl hk

theorem sim_receive (h : Sim w n) {msg : GroupMessage} (hmsg : msg ∈ w.msgs) (act : Action) :
    Simulates w (w.setDb i ((w.dbs i).run (receiveMessage msg)).2) n i act := by
  rcases receiveMessage_cases (w.dbs i) msg with ⟨e, hrun⟩ | ⟨-, hrun⟩ | ⟨-, hnone, hrun⟩
  · rw [hrun]
    exact .stay (h.same (h.holds i)) i act
  · rw [hrun]
    exact .stay (h.same (h.holds i)) i act
  · rw [hrun]
    have hnew : n.held i msg.key = none := by
      rw [(h.holds i).content, Option.map_eq_none_iff] at hnone
      exact hnone
    refine ⟨_, .inr (.take i msg (h.copies ▸ hmsg) hnew),
      ⟨h.setDb ?_ fun j hj => logOf_put_other n msg hj, h.copies, h.marks⟩, fun _ _ hk => .inl hk⟩
    rw [logOf_put_stored hnew]
    exact (h.holds i).store hnew

theorem sim_receipt (h : Sim w n) {r : GroupReceiptPayload} (hr : r ∈ w.receipts) (act : Action) :
    Simulates w (w.setDb i ((w.dbs i).run (processReceipt r)).2) n i act := by
  cases hm : n.held i (r.groupId, r.messageId) with
  | none => exact .stay (h.ignored r hm) i act
  | some m =>
    have hmark : ((r.groupId, r.messageId), r.status) ∈ n.marks := by
      rw [h.marks]
      exact List.mem_map_of_mem hr
    exact ⟨_, .inr (.handle i _ m r.status hm hmark), h.handled r hm, fun _ _ hk => .inl hk⟩

/-- **Every step of a machine is one of a replica, or none.** -/
theorem sim_step (h : Sim w n) (hinv : n.Inv) (i : ι) (act : Action)
    (hfresh : ∀ k, act.draws = some k → n.made k = none) : Simulates w (w.step i act) n i act := by
  cases act with
  | persist man => exact .stay (h.same ((h.holds i).put_manifest man.groupId _)) i _
  | ship g id =>
    simp only [World.step, run_getMessage (h.holds i)]
    cases hm : logOf n i g id with
    | none => exact .stay h i _
    | some m =>
      refine ⟨_, .inr (.copy i (g, id) m hm), ⟨h.holds, ?_, h.marks⟩, fun _ _ hk => .inl hk⟩
      simp only [h.copies]
  | call op =>
    simp only [World.step]
    split
    · next hoffers =>
      cases op with
      | create label founders g ts =>
        refine .call (.stay (h.same ?_) i _) rfl
        exact step_holds (h.holds i) (.create label founders g ts) fun _ _ _ _ _ _ he => by cases he
      | member g call =>
        refine .call (.stay (h.same ?_) i _) rfl
        exact step_holds (h.holds i) (.member g call) fun _ _ _ _ _ _ he => by cases he
      | send g sender machine text id ts =>
        exact .call (sim_send h hinv g sender machine text id ts (hfresh _ rfl)) rfl
      | receive msg => exact .call (sim_receive h hoffers _) rfl
      | receipt r => exact .call (sim_receipt h hoffers _) rfl
      | markDelivered g id who machine now => exact sim_mark h g id who machine .delivered now _ rfl
      | markRead g id who machine now => exact sim_mark h g id who machine .read now _ rfl
    · exact .stay h i _

end Simulation

end ZeroSdk.Group
