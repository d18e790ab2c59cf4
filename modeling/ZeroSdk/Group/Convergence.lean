/-
The machines of a group, over whole runs. Whatever is shipped and delivered,
lost, repeated, delayed and reordered, a message that any machine has is one
that a member sent, and its status is one that a machine marked it with
(`machines_agree`).

A group is settled when everything stored has been shipped and nothing in
flight changes any machine. Then all machines that know the group list the
same messages (`machines_converge`).
-/
import Mathlib.Data.List.Induction
import ZeroSdk.Group.Replicas

namespace ZeroSdk.Group

/-- The message is `first`, up to its status. -/
def GroupMessage.IsOf (m first : GroupMessage) : Prop := m = { first with status := m.status }

theorem GroupMessage.isOf_raise (m : GroupMessage) (s : GroupMessageStatus) : (m.raise s).IsOf m := rfl

section Runs
variable {ι : Type} [DecidableEq ι] {w : World ι} {acts : List (ι × Action)} {P : ι → ZeroDb → Action → Prop}

/-- Somewhere in the run a machine takes such an action, on the store it has
then. -/
def Happens (w : World ι) (acts : List (ι × Action)) (P : ι → ZeroDb → Action → Prop) : Prop :=
  ∃ pre i act post, acts = pre ++ (i, act) :: post ∧ P i ((w.run pre).dbs i) act

theorem Happens.append (h : Happens w acts P) (more : List (ι × Action)) : Happens w (acts ++ more) P := by
  obtain ⟨pre, i, act, post, rfl, hp⟩ := h
  exact ⟨pre, i, act, post ++ more, by simp, hp⟩

theorem Happens.last {i : ι} {act : Action} (h : P i ((w.run acts).dbs i) act) : Happens w (acts ++ [(i, act)]) P :=
  ⟨acts, i, act, [], rfl, h⟩

/-- The message was sent at machine `i`. -/
def SentAt (w : World ι) (acts : List (ι × Action)) (i : ι) (m : GroupMessage) : Prop :=
  Happens w acts fun j db act => j = i ∧ act.Sends db m

/-- The receipt was returned somewhere. -/
def Emitted (w : World ι) (acts : List (ι × Action)) (r : GroupReceiptPayload) : Prop :=
  Happens w acts fun _ db act => act.Emits db r

/-! ## Every run -/

theorem mem_receipts_step {i : ι} {act : Action} {r : GroupReceiptPayload}
    (h : r ∈ (w.step i act).receipts) : r ∈ w.receipts ∨ act.Emits (w.dbs i) r := by
  cases act with
  | call op =>
    simp only [World.step] at h
    split at h
    · exact List.mem_append.mp h
    · exact .inl h
  | persist man => exact .inl h
  | ship g id =>
    simp only [World.step] at h
    split at h
    · exact .inl h
    · exact .inl h

theorem Action.Sends.drawn {db : ZeroDb} {m : GroupMessage} {act : Action} (h : act.Sends db m) :
    act.draws = some m.key ∧ m.status = .sent := by
  cases act with
  | call op =>
    cases op with
    | send g sender machine text id ts =>
      obtain ⟨man, -, -, rfl⟩ := h
      exact ⟨rfl, rfl⟩
    | _ => exact h.elim
  | _ => exact h.elim

/-- The run is one of the replicas, in which every message was made where it
was sent and every receipt was returned by a call. -/
structure Replays (w : World ι) (acts : List (ι × Action)) (n : GroupNet ι) : Prop where
  sim : Sim (w.run acts) n
  inv : n.Inv
  made : ∀ k p, n.made k = some p → SentAt w acts p.1 p.2 ∧ k = p.2.key
  emitted : ∀ r ∈ (w.run acts).receipts, Emitted w acts r

theorem run_replays (hw : w.Fresh) (hfresh : FreshSends acts) : ∃ n, Replays w acts n := by
  induction acts using List.reverseRecOn with
  | nil =>
    refine ⟨⟨fun _ _ => none, [], [], fun _ => none⟩, ⟨fun i => (hw.dbs i).holds, hw.msgs.symm, ?_⟩, ?_, ?_, ?_⟩
    · rw [World.run, List.foldl_nil, hw.receipts]
      rfl
    · exact Replicated.Inv.init (fun _ _ => rfl) rfl fun _ => rfl
    · intro k p hk
      cases hk
    · intro r hr
      rw [World.run, List.foldl_nil, hw.receipts] at hr
      cases hr
  | append_singleton acts a ih =>
    obtain ⟨i, act⟩ := a
    obtain ⟨hpre, -, hlast⟩ := List.pairwise_append.mp hfresh
    obtain ⟨n, hf⟩ := ih hpre
    -- what was made before was drawn before
    have hnew : ∀ k, act.draws = some k → n.made k = none := by
      intro k hk
      cases hmade : n.made k with
      | none => rfl
      | some p =>
        obtain ⟨⟨pre, j, act', post, rfl, rfl, hsends⟩, rfl⟩ := hf.made k p hmade
        exact absurd hk (hlast (p.1, act') (by simp) (i, act) (by simp) p.2.key hsends.drawn.1)
    obtain ⟨n', hstep, hsim, hmade⟩ := sim_step hf.sim hf.inv i act hnew
    have hrun : w.run (acts ++ [(i, act)]) = (w.run acts).step i act := World.run_append ..
    refine ⟨n', by rw [hrun]; exact hsim, ?_, fun k p hk => ?_, fun r hr => ?_⟩
    · rcases hstep with rfl | hstep
      · exact hf.inv
      · exact hf.inv.step GroupMessage.raise_bot GroupMessage.raise_raise GroupMessage.key_raise hstep
    · rcases hmade k p hk with hk | ⟨hi, hsends, hkey⟩
      · exact ⟨(hf.made k p hk).1.append _, (hf.made k p hk).2⟩
      · subst hi
        exact ⟨.last ⟨rfl, hsends⟩, hkey⟩
    · rw [hrun] at hr
      rcases mem_receipts_step hr with hr | hr
      · exact (hf.emitted r hr).append _
      · exact .last hr

end Runs

/-! ## A run -/

/-- The message that `exchange` sends. -/
def greeting : GroupMessage :=
  ⟨⟨Arr.fill 16 7⟩, ⟨Arr.fill 16 1⟩, ⟨Arr.fill 16 1⟩, ⟨Arr.fill 16 3⟩, Str.empty, 3, 6, .sent⟩

/-- Two machines know a group; one sends a message, which comes to the other
twice and is read there, and the receipt comes back. -/
def exchange : List (Bool × Action) :=
  let man := renamed Str.empty
  let read : GroupReceiptPayload := ⟨greeting.id, greeting.groupId, ⟨Arr.fill 16 2⟩, ⟨Arr.fill 16 4⟩, .read, 8⟩
  [(true, .persist man), (false, .persist man),
    (true, .call (.send greeting.groupId greeting.senderIdentity greeting.senderMachine Str.empty greeting.id 6)),
    (true, .ship greeting.groupId greeting.id), (false, .call (.receive greeting)), (false, .call (.receive greeting)),
    (false, .call (.markRead greeting.groupId greeting.id ⟨Arr.fill 16 2⟩ ⟨Arr.fill 16 4⟩ 8)),
    (true, .call (.receipt read))]

def twoMachines : World Bool := ⟨fun _ => ZeroDb.empty, [], []⟩

theorem twoMachines_fresh : twoMachines.Fresh := ⟨fun _ _ _ _ => rfl, rfl, rfl⟩

theorem exchange_freshSends : FreshSends exchange := by
  simp [FreshSends, exchange, Action.draws]

theorem exchange_read (i : Bool) :
    (((twoMachines.run exchange).dbs i).run (getMessage greeting.groupId greeting.id)).1 =
      .ok (some (greeting.raise .read)) := by
  cases i <;> decide +kernel

/-! ## Agreement -/

/-- **Agreement.** At any point of any run: a message that a machine has was
sent by a member of the group, the machine it was sent at has it too, and both
have it as it was sent, up to its status; and a status above `Sent` is that of
a receipt some machine returned for it. -/
theorem machines_agree {ι : Type} [DecidableEq ι] {w : World ι} (hw : w.Fresh) {acts : List (ι × Action)}
    (hfresh : FreshSends acts) {i : ι} {g : GroupId} {id : GroupMessageId} {m : GroupMessage}
    (hm : (((w.run acts).dbs i).run (getMessage g id)).1 = .ok (some m)) :
    (∃ j first m', SentAt w acts j first ∧ first.groupId = g ∧ first.id = id ∧ m.IsOf first ∧
      (((w.run acts).dbs j).run (getMessage g id)).1 = .ok (some m') ∧ m'.IsOf first) ∧
    (m.status = .sent ∨ ∃ r, Emitted w acts r ∧ r.groupId = g ∧ r.messageId = id ∧ r.status = m.status) := by
  obtain ⟨n, hf⟩ := run_replays hw hfresh
  have hread : ∀ j, (((w.run acts).dbs j).run (getMessage g id)).1 = .ok (n.held j (g, id)) := fun j =>
    run_getMessage (hf.sim.holds j) g id
  rw [hread, Except.ok.injEq] at hm
  obtain ⟨hk, j, first, l, hmade, hl, rfl⟩ := hf.inv.held i (g, id) m hm
  rw [hk] at hmade hl
  obtain ⟨hsent, hkey⟩ := hf.made (g, id) (j, first) hmade
  obtain ⟨rfl, rfl⟩ := Prod.mk.inj hkey
  obtain ⟨m', hm'⟩ := hf.inv.kept _ j first hmade
  obtain ⟨hk', j', first', l', hmade', -, rfl⟩ := hf.inv.held j _ m' hm'
  rw [hk', hmade] at hmade'
  cases hmade'
  refine ⟨⟨j, first, _, hsent, rfl, rfl, first.isOf_raise _, by rw [hread, hm'], first.isOf_raise _⟩, ?_⟩
  -- it was sent as `Sent`, so its status is the join of the marks that raised it
  have hsent' : first.status = .sent := by
    obtain ⟨_, _, _, _, _, -, hsends⟩ := hsent
    exact hsends.drawn.2
  have hjoin : (first.raise (Replicated.join l)).status = Replicated.join l := by
    rw [GroupMessage.raise, hsent']
    exact max_eq_right bot_le
  rcases Replicated.join_eq_bot_or_mem l with hbot | hmem
  · rw [hjoin, hbot]
    exact .inl rfl
  · have hmark := hl _ hmem
    rw [hf.sim.marks] at hmark
    obtain ⟨r, hr, heq⟩ := List.mem_map.mp hmark
    obtain ⟨hkr, hsr⟩ := Prod.mk.inj heq
    obtain ⟨hg, hid⟩ := Prod.mk.inj hkr
    exact .inr ⟨r, hf.emitted r hr, hg, hid, hsr.trans hjoin.symm⟩

theorem machines_agree_exchange :
    ∃ m, (((twoMachines.run exchange).dbs false).run (getMessage greeting.groupId greeting.id)).1 = .ok (some m) ∧
      m.status = .read ∧ (∃ j first m', SentAt twoMachines exchange j first ∧ first.groupId = greeting.groupId ∧
        first.id = greeting.id ∧ m.IsOf first ∧
        (((twoMachines.run exchange).dbs j).run (getMessage greeting.groupId greeting.id)).1 = .ok (some m') ∧
        m'.IsOf first) ∧
      ∃ r, Emitted twoMachines exchange r ∧ r.groupId = greeting.groupId ∧ r.messageId = greeting.id ∧
        r.status = m.status := by
  obtain ⟨hsent, hstatus⟩ := machines_agree twoMachines_fresh exchange_freshSends (exchange_read false)
  exact ⟨_, exchange_read false, rfl, hsent, hstatus.resolve_left (by decide)⟩

/-! ## Settled groups -/

/-- The machine has a manifest of the group. -/
def Knows (db : ZeroDb) (g : GroupId) : Prop := ∃ man, manifestAt db g = .ok man

/-- Every message of the group that a machine has was shipped, and nothing of
the group that is in flight changes any machine. -/
structure World.Settled {ι : Type} (w : World ι) (g : GroupId) : Prop where
  shipped : ∀ i id m, ((w.dbs i).run (getMessage g id)).1 = .ok (some m) → ∃ msg ∈ w.msgs, msg.groupId = g ∧ msg.id = id
  messages : ∀ i, ∀ msg ∈ w.msgs, msg.groupId = g → ((w.dbs i).run (receiveMessage msg)).2 = w.dbs i
  receipts : ∀ i, ∀ r ∈ w.receipts, r.groupId = g → ((w.dbs i).run (processReceipt r)).2 = w.dbs i

/-- A message changes nothing exactly when it is stored already, or the
machine does not know its group. -/
theorem receiveMessage_unchanged {db : ZeroDb} {log : Log} (h : Holds db log) {msg : GroupMessage} :
    (db.run (receiveMessage msg)).2 = db ↔ (Knows db msg.groupId → ∃ m, log msg.groupId msg.id = some m) := by
  have hkey := h.content msg.groupId msg.id
  rcases receiveMessage_cases db msg with ⟨e, hrun⟩ | ⟨hsome, hrun⟩ | ⟨hman, hnone, hrun⟩
  · refine iff_of_true (by rw [hrun]) fun ⟨man, hman⟩ => ?_
    cases hlog : log msg.groupId msg.id with
    | some m => exact ⟨m, rfl⟩
    | none =>
      rw [hlog] at hkey
      simp only [receiveMessage, Prog.run_bind, run_getManifest, hman, Prog.run_mapErr, run_getRaw, Except.mapError,
        hkey] at hrun
      cases hrun
  · rw [hkey, Option.isSome_map] at hsome
    exact iff_of_true (by rw [hrun]) fun _ => Option.isSome_iff_exists.mp hsome
  · rw [hrun]
    rw [hkey, Option.map_eq_none_iff] at hnone
    refine iff_of_false (fun hsame => ?_) fun hm => ?_
    · have hread := congrArg (fun db => db.get .groups (makeMsgKey msg.groupId msg.id)) hsame
      simp only [ZeroDb.get_put_self, hkey, hnone] at hread
      cases hread
    · obtain ⟨m, hm⟩ := hm hman
      rw [hnone] at hm
      cases hm

/-- Stores with one log for the group list it alike. -/
theorem Holds.listMessages_eq {db db' : ZeroDb} {log log' : Log} (h : Holds db log) (h' : Holds db' log') {g : GroupId}
    (hg : log g = log' g) (before : Option GroupMessageId) (limit : Nat) :
    (db.run (listMessages g before limit)).1 = (db'.run (listMessages g before limit)).1 := by
  have hsame : (db.cf .groups).select (makeMsgPrefix g).isPrefixOf =
      (db'.cf .groups).select (makeMsgPrefix g).isPrefixOf := by
    refine OrdMap.select_congr fun k hk => ?_
    have hpre := List.isPrefixOf_iff_prefix.mp hk
    by_cases hown : ∃ id, k = makeMsgKey g id
    · obtain ⟨id, rfl⟩ := hown
      exact (h.content g id).trans (by rw [hg]; exact (h'.content g id).symm)
    · have hnone : ∀ {db : ZeroDb} {log : Log}, Holds db log → db.get .groups k = none := by
        intro db log h
        refine Option.eq_none_iff_forall_not_mem.mpr fun v hv => ?_
        exact hown (h.keyed g k v hpre hv)
      exact (hnone h).trans (hnone h').symm
  obtain ⟨msgs, hstores, -, -⟩ := h.stores g
  have hstores' : Stores db' g msgs := by
    rw [Stores, ← hsame]
    exact hstores
  rw [run_listMessages hstores, run_listMessages hstores']

/-- **Convergence.** Once a group is settled, all machines that know it list
the same messages, with the same statuses, whatever came to them in which
order. -/
theorem machines_converge {ι : Type} [DecidableEq ι] {w : World ι} (hw : w.Fresh) {acts : List (ι × Action)}
    (hfresh : FreshSends acts) {g : GroupId} (hs : (w.run acts).Settled g) {i j : ι}
    (hi : Knows ((w.run acts).dbs i) g) (hj : Knows ((w.run acts).dbs j) g)
    (before : Option GroupMessageId) (limit : Nat) :
    (((w.run acts).dbs i).run (listMessages g before limit)).1 =
      (((w.run acts).dbs j).run (listMessages g before limit)).1 := by
  obtain ⟨n, hr⟩ := run_replays hw hfresh
  have hall : ∀ {i j : ι}, Knows ((w.run acts).dbs j) g → ∀ {id m}, n.held i (g, id) = some m →
      ∃ m', n.held j (g, id) = some m' := by
    intro i j hj id m hm
    obtain ⟨msg, hmsg, rfl, rfl⟩ := hs.shipped i id m (by rw [run_getMessage (hr.sim.holds i)]; exact congrArg _ hm)
    exact (receiveMessage_unchanged (hr.sim.holds j)).mp (hs.messages j msg hmsg rfl) hj
  have hsettled : ∀ i id, Replicated.Net.Settled GroupMessage.raise n i (g, id) := by
    intro i id m s hm hmark
    rw [hr.sim.marks] at hmark
    obtain ⟨r, hmem, heq⟩ := List.mem_map.mp hmark
    obtain ⟨hkey, rfl⟩ := Prod.mk.inj heq
    obtain ⟨rfl, rfl⟩ := Prod.mk.inj hkey
    have hle := (processReceipt_unchanged (hr.sim.holds i)).mp (hs.receipts i r hmem rfl) m hm
    rw [GroupMessage.raise, max_eq_left hle]
  refine (hr.sim.holds i).listMessages_eq (hr.sim.holds j) (funext fun id => ?_) before limit
  simp only [logOf]
  cases hm : n.held i (g, id) with
  | some m =>
    obtain ⟨m', hm'⟩ := hall hj hm
    rw [hm', hr.inv.agree GroupMessage.raise_bot GroupMessage.raise_raise (hsettled i id) (hsettled j id) hm hm']
  | none =>
    cases hm' : n.held j (g, id) with
    | none => rfl
    | some m' =>
      obtain ⟨m, hsome⟩ := hall hi hm'
      rw [hm] at hsome
      cases hsome

theorem exchange_settled : (twoMachines.run exchange).Settled greeting.groupId := by
  obtain ⟨n, hr⟩ := run_replays twoMachines_fresh exchange_freshSends
  have hmsgs : (twoMachines.run exchange).msgs = [greeting] := by decide +kernel
  have hreceipts : ∀ r ∈ (twoMachines.run exchange).receipts, r.status ≤ .read ∧ r.messageId = greeting.id := by
    decide +kernel
  have hheld : ∀ i, logOf n i greeting.groupId greeting.id = some (greeting.raise .read) := fun i =>
    Except.ok.inj ((run_getMessage (hr.sim.holds i) _ _).symm.trans (exchange_read i))
  refine ⟨fun i id m hm => ?_, fun i msg hmsg _ => ?_, fun i r hmem hg => ?_⟩
  · rw [run_getMessage (hr.sim.holds i), Except.ok.injEq] at hm
    obtain ⟨hkm, j, first, -, hmade, -⟩ := hr.inv.held i _ m hm
    obtain ⟨⟨pre, k, act, post, hacts, -, hsends⟩, hkey⟩ := hr.made _ _ hmade
    have hone : ∀ a ∈ exchange, a.2.draws = none ∨ a.2.draws = some greeting.key := by decide +kernel
    rcases hone (k, act) (by rw [hacts]; simp) with hdraws | hdraws
    · rw [hsends.drawn.1] at hdraws
      cases hdraws
    · have hid := hkm.symm.trans (hkey.trans (Option.some.inj (hsends.drawn.1.symm.trans hdraws)))
      exact ⟨greeting, by rw [hmsgs]; exact List.mem_singleton.mpr rfl, rfl, (Prod.mk.inj hid).2.symm⟩
  · rw [hmsgs] at hmsg
    obtain rfl := List.mem_singleton.mp hmsg
    exact (receiveMessage_unchanged (hr.sim.holds i)).mpr fun _ => ⟨_, hheld i⟩
  · obtain ⟨hle, hid⟩ := hreceipts r hmem
    refine (processReceipt_unchanged (hr.sim.holds i)).mpr fun m hm => ?_
    rw [hg, hid, hheld] at hm
    cases hm
    exact hle

theorem machines_converge_exchange :
    (twoMachines.run exchange).Settled greeting.groupId ∧ ∀ before limit,
      (((twoMachines.run exchange).dbs false).run (listMessages greeting.groupId before limit)).1 =
        (((twoMachines.run exchange).dbs true).run (listMessages greeting.groupId before limit)).1 := by
  have hknows : ∀ i, Knows ((twoMachines.run exchange).dbs i) greeting.groupId := by
    intro i
    exact ⟨renamed Str.empty, by cases i <;> decide +kernel⟩
  refine ⟨exchange_settled, fun before limit => ?_⟩
  exact machines_converge twoMachines_fresh exchange_freshSends exchange_settled (hknows false) (hknows true) before
    limit

end ZeroSdk.Group
