/-
Settling a group. Receiving a message and processing a receipt leave manifests
and messages alone and raise statuses (`Grown`), so what one delivery has
achieved the next ones keep. Hence a round of all shipments, one of all
messages and one of all receipts settles the group, from wherever a run has
got to (`machines_settle`). The receipts come last: one that comes before its
message is dropped.
-/
import Mathlib.Data.Fintype.Basic
import Mathlib.Data.List.ProdSigma
import ZeroSdk.Group.Convergence
import ZeroSdk.Group.Speakers

namespace ZeroSdk.Group

/-- Two messages that come of one are of each other. -/
theorem GroupMessage.isOf_of_raise {m first : GroupMessage} {s t : GroupMessageStatus} (h : m.raise s = first.raise t)
    (u : GroupMessageStatus) : (first.raise u).IsOf m := by
  cases m
  cases first
  simp only [GroupMessage.raise, GroupMessage.mk.injEq] at h
  obtain ⟨rfl, rfl, rfl, rfl, rfl, rfl, rfl, -⟩ := h
  rfl

/-! ## Deliveries -/

/-- What a delivery leaves: manifests and messages stay, and a message changes
in its status alone. -/
structure Grown (db db' : ZeroDb) (log log' : Log) : Prop where
  holds : Holds db' log'
  manifests : ∀ g, manifestAt db' g = manifestAt db g
  logs : ∀ g id m, log g id = some m → ∃ s, log' g id = some (m.raise s)

theorem Grown.refl {db : ZeroDb} {log : Log} (h : Holds db log) : Grown db db log log :=
  ⟨h, fun _ => rfl, fun g id m hm => ⟨⊥, by rw [hm, GroupMessage.raise_bot]⟩⟩

theorem Grown.trans {db db' db'' : ZeroDb} {log log' log'' : Log} (h : Grown db db' log log')
    (h' : Grown db' db'' log' log'') : Grown db db'' log log'' := by
  refine ⟨h'.holds, fun g => (h'.manifests g).trans (h.manifests g), fun g id m hm => ?_⟩
  obtain ⟨s, hs⟩ := h.logs g id m hm
  obtain ⟨t, ht⟩ := h'.logs g id _ hs
  exact ⟨s ⊔ t, by rw [ht, GroupMessage.raise_raise]⟩

theorem Grown.knows {db db' : ZeroDb} {log log' : Log} (h : Grown db db' log log') {g : GroupId} :
    Knows db' g ↔ Knows db g := by
  simp only [Knows, h.manifests]

/-- A message that changed nothing still does not. -/
theorem Grown.receive_unchanged {db db' : ZeroDb} {log log' : Log} (h : Grown db db' log log') (hdb : Holds db log)
    {msg : GroupMessage} (hm : (db.run (receiveMessage msg)).2 = db) : (db'.run (receiveMessage msg)).2 = db' := by
  rw [receiveMessage_unchanged h.holds, h.knows]
  intro hknows
  obtain ⟨m, hlog⟩ := (receiveMessage_unchanged hdb).mp hm hknows
  obtain ⟨s, hs⟩ := h.logs _ _ m hlog
  exact ⟨_, hs⟩

theorem grown_receive {db : ZeroDb} {log : Log} (h : Holds db log) (msg : GroupMessage) :
    ∃ log', Grown db (db.run (receiveMessage msg)).2 log log' ∧
      ((db.run (receiveMessage msg)).2.run (receiveMessage msg)).2 = (db.run (receiveMessage msg)).2 ∧
      ∀ g id m, log' g id = some m → log g id = some m ∨ msg.groupId = g ∧ msg.id = id := by
  rcases receiveMessage_cases db msg with ⟨e, hrun⟩ | ⟨-, hrun⟩ | ⟨-, hnone, hrun⟩
  · exact ⟨log, by rw [hrun]; exact .refl h, by rw [hrun, hrun], fun _ _ _ hm => .inl hm⟩
  · exact ⟨log, by rw [hrun]; exact .refl h, by rw [hrun, hrun], fun _ _ _ hm => .inl hm⟩
  · rw [h.content, Option.map_eq_none_iff] at hnone
    have hholds := h.store hnone
    have hread : (log.step (.stored msg)) msg.groupId msg.id = some msg := by simp [Log.step, hnone]
    refine ⟨log.step (.stored msg), ⟨?_, fun g => ?_, fun g id m hm => ⟨⊥, ?_⟩⟩, ?_, fun g id m hm => ?_⟩
    · rw [hrun]
      exact hholds
    · exact manifestAt_receive db msg g
    · rw [GroupMessage.raise_bot]
      simp only [Log.step, hm]
    · rw [hrun]
      exact (receiveMessage_unchanged hholds).mpr fun _ => ⟨msg, hread⟩
    · simp only [Log.step] at hm
      split at hm
      · next hlog => exact .inl (hlog.trans hm)
      · split at hm
        · next hkey => exact .inr hkey
        · cases hm

theorem Log.step_receipt_some {log : Log} {g g' : GroupId} {id id' : GroupMessageId} {s : GroupMessageStatus}
    {m' : GroupMessage} (h : log.step (.receipt g' id' s) g id = some m') :
    ∃ m, log g id = some m ∧ m.status ≤ m'.status ∧ (g' = g → id' = id → s ≤ m'.status) := by
  simp only [Log.step] at h
  split at h
  · obtain ⟨m, hm, rfl⟩ := Option.map_eq_some_iff.mp h
    exact ⟨m, hm, le_max_left _ _, fun _ _ => le_max_right _ _⟩
  · next hne => exact ⟨m', h, le_rfl, fun hg hid => absurd ⟨hg, hid⟩ hne⟩

theorem manifestAt_receipt {db : ZeroDb} {log : Log} (h : Holds db log) (r : GroupReceiptPayload) (g : GroupId) :
    manifestAt (db.run (processReceipt r)).2 g = manifestAt db g := by
  have hkey := h.content r.groupId r.messageId
  cases hm : log r.groupId r.messageId with
  | none =>
    rw [hm, Option.map_none] at hkey
    rw [run_processReceipt_none hkey]
  | some m =>
    rw [hm, Option.map_some] at hkey
    rw [run_processReceipt_some hkey]
    split
    · rw [manifestAt_eq, manifestAt_eq, ZeroDb.get_put_of_ne]
      intro hk
      exact not_msgPrefix_groupKey r.groupId g (hk ▸ makeMsgPrefix_isPrefix_iff.mpr rfl)
    · rfl

theorem grown_receipt {db : ZeroDb} {log : Log} (h : Holds db log) (r : GroupReceiptPayload) :
    Grown db (db.run (processReceipt r)).2 log (log.step (.receipt r.groupId r.messageId r.status)) := by
  refine ⟨h.receipt r, manifestAt_receipt h r, fun g id m hm => ?_⟩
  simp only [Log.step]
  split
  · exact ⟨r.status, by rw [hm]; rfl⟩
  · exact ⟨⊥, by rw [hm, GroupMessage.raise_bot]⟩

/-- After a receipt, it and whatever receipts changed nothing before change
nothing. -/
theorem receipt_unchanged {db : ZeroDb} {log : Log} (h : Holds db log) (r : GroupReceiptPayload)
    {r' : GroupReceiptPayload} (hr' : r' = r ∨ (db.run (processReceipt r')).2 = db) :
    ((db.run (processReceipt r)).2.run (processReceipt r')).2 = (db.run (processReceipt r)).2 := by
  rw [processReceipt_unchanged (h.receipt r)]
  intro m' hm'
  obtain ⟨m, hm, hle, hs⟩ := Log.step_receipt_some hm'
  rcases hr' with rfl | hr'
  · exact hs rfl rfl
  · exact le_trans ((processReceipt_unchanged h).mp hr' m hm) hle

/-- Shipping, and delivering what is in flight. -/
def Action.Delivers : Action → Prop
  | .ship _ _ | .call (.receive _) | .call (.receipt _) => True
  | _ => False

theorem Action.Delivers.draws {act : Action} (h : act.Delivers) : act.draws = none := by
  cases act with
  | call op =>
    cases op with
    | send g sender machine text id ts => exact h.elim
    | _ => rfl
  | _ => rfl

theorem FreshSends.append {ι : Type} {acts more : List (ι × Action)} (h : FreshSends acts)
    (hmore : ∀ a ∈ more, a.2.Delivers) : FreshSends (acts ++ more) := by
  refine List.pairwise_append.mpr ⟨h, ?_, fun a _ b hb k _ hk => ?_⟩
  · refine List.pairwise_of_forall_mem_list fun a ha b _ k hk => ?_
    rw [(hmore a ha).draws] at hk
    cases hk
  · rw [(hmore b hb).draws] at hk
    cases hk

section Runs
variable {ι : Type} [DecidableEq ι]

/-! ## Settling -/

theorem step_receive {w : World ι} {msg : GroupMessage} (h : msg ∈ w.msgs) (i : ι) :
    w.step i (.call (.receive msg)) = w.setDb i ((w.dbs i).run (receiveMessage msg)).2 := by
  have hoffers : w.Offers (.receive msg) := h
  simp only [World.step, if_pos hoffers, Op.emitted, List.append_nil]
  rfl

theorem step_receipt {w : World ι} {r : GroupReceiptPayload} (h : r ∈ w.receipts) (i : ι) :
    w.step i (.call (.receipt r)) = w.setDb i ((w.dbs i).run (processReceipt r)).2 := by
  have hoffers : w.Offers (.receipt r) := h
  simp only [World.step, if_pos hoffers, Op.emitted, List.append_nil]
  rfl

/-- Shipping what machines have stored changes no machine. -/
theorem run_ships {w : World ι} {g : GroupId} {l : List (ι × GroupMessage)}
    (h : ∀ p ∈ l, ((w.dbs p.1).run (getMessage g p.2.id)).1 = .ok (some p.2)) :
    w.run (l.map fun p => (p.1, .ship g p.2.id)) = { w with msgs := w.msgs ++ l.map (·.2) } := by
  induction l using List.reverseRecOn with
  | nil => simp [World.run]
  | append_singleton l p ih =>
    have hp := h p (List.mem_append_right _ List.mem_cons_self)
    rw [List.map_append, World.run_append, ih fun q hq => h q (List.mem_append_left _ hq)]
    simp only [World.run, List.map_cons, List.map_nil, List.foldl_cons, List.foldl_nil, World.step, hp, List.map_append,
      List.append_assoc]

/-- Whatever the log has of the group was shipped. -/
def Shipped (msgs : List GroupMessage) (g : GroupId) (log : Log) : Prop :=
  ∀ id m, log g id = some m → ∃ msg ∈ msgs, msg.groupId = g ∧ msg.id = id

/-- What deliveries have made of `w₀`: in flight is what was, and whatever a
machine has of the group was shipped. -/
structure Delivered (w₀ w : World ι) (logs : ι → Log) (g : GroupId) : Prop where
  msgs : w.msgs = w₀.msgs
  receipts : w.receipts = w₀.receipts
  dbs : ∀ j, ∃ log, Grown (w₀.dbs j) (w.dbs j) (logs j) log ∧ Shipped w₀.msgs g log

section Round
variable {w₀ w : World ι} {logs : ι → Log} {g : GroupId}

theorem Delivered.setDb (h : Delivered w₀ w logs g) {i : ι} {db : ZeroDb}
    (hdb : ∀ log, Grown (w₀.dbs i) (w.dbs i) (logs i) log → Shipped w₀.msgs g log →
      ∃ log', Grown (w.dbs i) db log log' ∧ Shipped w₀.msgs g log') : Delivered w₀ (w.setDb i db) logs g := by
  refine ⟨h.msgs, h.receipts, fun j => ?_⟩
  refine World.setDb_cases (Q := fun db => ∃ log, Grown (w₀.dbs j) db (logs j) log ∧ Shipped w₀.msgs g log)
    (fun hj => ?_) fun _ => h.dbs j
  obtain ⟨log, hgrown, hshipped⟩ := h.dbs i
  obtain ⟨log', hgrown', hshipped'⟩ := hdb log hgrown hshipped
  rw [hj]
  exact ⟨log', hgrown.trans hgrown', hshipped'⟩

theorem Delivered.receive (h : Delivered w₀ w logs g) {msg : GroupMessage} (hmsg : msg ∈ w₀.msgs) (i : ι) :
    Delivered w₀ (w.setDb i ((w.dbs i).run (receiveMessage msg)).2) logs g := by
  refine h.setDb fun log hgrown hshipped => ?_
  obtain ⟨log', hgrown', -, hnew⟩ := grown_receive hgrown.holds msg
  refine ⟨log', hgrown', fun id m hm => ?_⟩
  rcases hnew g id m hm with hm | ⟨hg, hid⟩
  · exact hshipped id m hm
  · exact ⟨msg, hmsg, hg, hid⟩

theorem Delivered.receipt (h : Delivered w₀ w logs g) (r : GroupReceiptPayload) (i : ι) :
    Delivered w₀ (w.setDb i ((w.dbs i).run (processReceipt r)).2) logs g := by
  refine h.setDb fun log hgrown hshipped => ⟨_, grown_receipt hgrown.holds r, fun id m hm => ?_⟩
  obtain ⟨m₀, hm₀, -⟩ := Log.step_receipt_some hm
  exact hshipped id m₀ hm₀

theorem round_receive (h : Delivered w₀ w logs g) (l : List (ι × GroupMessage)) (hl : ∀ p ∈ l, p.2 ∈ w₀.msgs) :
    Delivered w₀ (w.run (l.map fun p => (p.1, .call (.receive p.2)))) logs g ∧ ∀ p ∈ l,
      (((w.run (l.map fun p => (p.1, .call (.receive p.2)))).dbs p.1).run (receiveMessage p.2)).2 =
        (w.run (l.map fun p => (p.1, .call (.receive p.2)))).dbs p.1 := by
  rw [World.run, List.foldl_map]
  refine Replicated.round (I := fun w => Delivered w₀ w logs g)
    (P := fun (p : ι × GroupMessage) w => ((w.dbs p.1).run (receiveMessage p.2)).2 = w.dbs p.1) (fun p hp w h => ?_) h
  obtain ⟨log, hgrown, -⟩ := h.dbs p.1
  obtain ⟨log', hgrown', hidem, -⟩ := grown_receive hgrown.holds p.2
  rw [step_receive (by rw [h.msgs]; exact hl p hp)]
  refine ⟨h.receive (hl p hp) p.1, ?_, fun q _ hsame => ?_⟩
  · exact World.setDb_cases (Q := fun db => (db.run (receiveMessage p.2)).2 = db) (fun _ => hidem) (absurd rfl)
  · refine World.setDb_cases (Q := fun db => (db.run (receiveMessage q.2)).2 = db) (fun hq => ?_) fun _ => hsame
    rw [hq] at hsame
    exact hgrown'.receive_unchanged hgrown.holds hsame

/-- No message of the group in flight changes any machine. -/
def Received (w₀ w : World ι) (g : GroupId) : Prop :=
  ∀ j, ∀ msg ∈ w₀.msgs, msg.groupId = g → ((w.dbs j).run (receiveMessage msg)).2 = w.dbs j

theorem round_receipt (h : Delivered w₀ w logs g) (hmsgs : Received w₀ w g) (l : List (ι × GroupReceiptPayload))
    (hl : ∀ p ∈ l, p.2 ∈ w₀.receipts) :
    (Delivered w₀ (w.run (l.map fun p => (p.1, .call (.receipt p.2)))) logs g ∧
      Received w₀ (w.run (l.map fun p => (p.1, .call (.receipt p.2)))) g) ∧
    ∀ p ∈ l, (((w.run (l.map fun p => (p.1, .call (.receipt p.2)))).dbs p.1).run (processReceipt p.2)).2 =
        (w.run (l.map fun p => (p.1, .call (.receipt p.2)))).dbs p.1 := by
  rw [World.run, List.foldl_map]
  refine Replicated.round (I := fun w => Delivered w₀ w logs g ∧ Received w₀ w g)
    (P := fun (p : ι × GroupReceiptPayload) w => ((w.dbs p.1).run (processReceipt p.2)).2 = w.dbs p.1)
    (fun p hp w hw => ?_) ⟨h, hmsgs⟩
  obtain ⟨h, hmsgs⟩ := hw
  obtain ⟨log, hgrown, -⟩ := h.dbs p.1
  rw [step_receipt (by rw [h.receipts]; exact hl p hp)]
  refine ⟨⟨h.receipt p.2 p.1, fun j msg hmsg hg => ?_⟩, ?_, fun q _ hsame => ?_⟩
  · refine World.setDb_cases (Q := fun db => (db.run (receiveMessage msg)).2 = db) (fun _ => ?_)
      fun _ => hmsgs j msg hmsg hg
    exact (grown_receipt hgrown.holds p.2).receive_unchanged hgrown.holds (hmsgs p.1 msg hmsg hg)
  · exact World.setDb_cases (Q := fun db => (db.run (processReceipt p.2)).2 = db)
      (fun _ => receipt_unchanged hgrown.holds p.2 (.inl rfl)) (absurd rfl)
  · refine World.setDb_cases (Q := fun db => (db.run (processReceipt q.2)).2 = db) (fun hq => ?_) fun _ => hsame
    rw [hq] at hsame
    exact receipt_unchanged hgrown.holds p.2 (.inr hsame)

section Finite
variable [Fintype ι] (g) (h : ∀ i, Holds (w.dbs i) (logs i))
include h

theorem exists_shipped : ∃ ships, (∀ a ∈ ships, a.2.Delivers) ∧ (w.run ships).dbs = w.dbs ∧
    Delivered (w.run ships) (w.run ships) logs g := by
  choose stored _ _ hstored using fun i => (h i).stores g
  let l : List (ι × GroupMessage) := Finset.univ.toList.flatMap fun i => (stored i).map fun m => (i, m)
  have hread : ∀ p ∈ l, ((w.dbs p.1).run (getMessage g p.2.id)).1 = .ok (some p.2) := by
    intro p hp
    obtain ⟨i, -, hp⟩ := List.mem_flatMap.mp hp
    obtain ⟨m, hm, rfl⟩ := List.mem_map.mp hp
    rw [run_getMessage (h i), ((hstored i m).mp hm).2]
  refine ⟨l.map fun p => (p.1, .ship g p.2.id), fun a ha => ?_, by rw [run_ships hread], ?_⟩
  · obtain ⟨p, -, rfl⟩ := List.mem_map.mp ha
    trivial
  · rw [run_ships hread]
    refine ⟨rfl, rfl, fun j => ⟨logs j, .refl (h j), fun id m hm => ⟨m, ?_, (h j).own g id m hm⟩⟩⟩
    obtain ⟨hg, rfl⟩ := (h j).own g id m hm
    have hj : j ∈ (Finset.univ : Finset ι).toList := Finset.mem_toList.mpr (Finset.mem_univ j)
    have hmem : (j, m) ∈ l := List.mem_flatMap.mpr ⟨j, hj, List.mem_map_of_mem ((hstored j m).mpr ⟨hg, hm⟩)⟩
    exact List.mem_append_right _ (List.mem_map_of_mem (f := Prod.snd) hmem)

/-- Everything stored is shipped, then everything in flight is delivered to
every machine: the messages, and after them the receipts. -/
theorem exists_settled : ∃ more, (∀ a ∈ more, a.2.Delivers) ∧ (w.run more).Settled g ∧
    ∀ i, ∃ log, Grown (w.dbs i) ((w.run more).dbs i) (logs i) log := by
  obtain ⟨ships, hships, hdbs, hstart⟩ := exists_shipped g h
  let machines : List ι := Finset.univ.toList
  have hall : ∀ i : ι, i ∈ machines := fun i => Finset.mem_toList.mpr (Finset.mem_univ i)
  let msgs : List (ι × GroupMessage) := machines ×ˢ (w.run ships).msgs
  let receipts : List (ι × GroupReceiptPayload) := machines ×ˢ (w.run ships).receipts
  obtain ⟨hround, hmsgs⟩ := round_receive hstart msgs fun p hp => (List.pair_mem_product.mp hp).2
  have hreceived : Received (w.run ships) _ g := fun j msg hmsg _ =>
    hmsgs (j, msg) (List.pair_mem_product.mpr ⟨hall j, hmsg⟩)
  obtain ⟨⟨hend, hstill⟩, hreceipts⟩ := round_receipt hround hreceived receipts fun p hp =>
    (List.pair_mem_product.mp hp).2
  refine ⟨ships ++ (msgs.map (fun p => (p.1, .call (.receive p.2))) ++
    receipts.map fun p => (p.1, .call (.receipt p.2))), fun a ha => ?_, ?_, fun i => ?_⟩
  · rcases List.mem_append.mp ha with ha | ha
    · exact hships a ha
    · rcases List.mem_append.mp ha with ha | ha
      · obtain ⟨p, -, rfl⟩ := List.mem_map.mp ha
        trivial
      · obtain ⟨p, -, rfl⟩ := List.mem_map.mp ha
        trivial
  · rw [World.run_append, World.run_append]
    refine ⟨fun i id m hm => ?_, fun i msg hmsg hg => ?_, fun i r hr _ => ?_⟩
    · obtain ⟨log, hgrown, hshipped⟩ := hend.dbs i
      rw [run_getMessage hgrown.holds] at hm
      rw [hend.msgs]
      exact hshipped id m (Except.ok.inj hm)
    · rw [hend.msgs] at hmsg
      exact hstill i msg hmsg hg
    · rw [hend.receipts] at hr
      exact hreceipts (i, r) (List.pair_mem_product.mpr ⟨hall i, hr⟩)
  · obtain ⟨log, hgrown, -⟩ := hend.dbs i
    rw [World.run_append, World.run_append]
    rw [hdbs] at hgrown
    exact ⟨log, hgrown⟩

end Finite

end Round

/-- **A group can always be settled.** From wherever a run has got to, there
are shipments and deliveries after which the group is settled, and every
machine that knew it has every message that any machine had. -/
theorem machines_settle [Fintype ι] {w : World ι} (hw : w.Fresh) {acts : List (ι × Action)} (hfresh : FreshSends acts)
    (g : GroupId) :
    ∃ more, (∀ a ∈ more, a.2.Delivers) ∧ (w.run (acts ++ more)).Settled g ∧
      ∀ i id m, (((w.run acts).dbs i).run (getMessage g id)).1 = .ok (some m) → ∀ j, Knows ((w.run acts).dbs j) g →
        ∃ m', (((w.run (acts ++ more)).dbs j).run (getMessage g id)).1 = .ok (some m') ∧ m'.IsOf m := by
  obtain ⟨n, hr⟩ := run_replays hw hfresh
  obtain ⟨more, hmore, hsettled, hgrown⟩ := exists_settled g hr.sim.holds
  obtain ⟨n', hr'⟩ := run_replays hw (hfresh.append hmore)
  rw [← World.run_append] at hsettled
  simp only [← World.run_append] at hgrown
  refine ⟨more, hmore, hsettled, fun i id m hm j hj => ?_⟩
  -- the machine that had it still has it, so it was shipped and came to the other one
  obtain ⟨log, hi⟩ := hgrown i
  obtain ⟨log', hj'⟩ := hgrown j
  rw [run_getMessage (hr.sim.holds i), Except.ok.injEq] at hm
  obtain ⟨s, hs⟩ := hi.logs g id m hm
  have hread := run_getMessage hi.holds g id
  rw [hs] at hread
  obtain ⟨msg, hmsg, rfl, rfl⟩ := hsettled.shipped i id _ hread
  obtain ⟨m', hm'⟩ := (receiveMessage_unchanged hj'.holds).mp (hsettled.messages j msg hmsg rfl) (hj'.knows.mpr hj)
  have hread' := run_getMessage hj'.holds msg.groupId msg.id
  rw [hm'] at hread'
  refine ⟨m', hread', ?_⟩
  rw [run_getMessage (hr'.sim.holds i), Except.ok.injEq] at hread
  rw [run_getMessage (hr'.sim.holds j), Except.ok.injEq] at hread'
  obtain ⟨p, l, l', -, -, -, hfirst, rfl⟩ := hr'.inv.both hread hread'
  exact GroupMessage.isOf_of_raise hfirst _

/-- Settled from where the message is sent and nothing is shipped yet. -/
theorem machines_settle_exchange :
    ∃ more, (∀ a ∈ more, a.2.Delivers) ∧
      (twoMachines.run (exchange.take 3 ++ more)).Settled greeting.groupId ∧
      ∃ m', (((twoMachines.run (exchange.take 3 ++ more)).dbs false).run
        (getMessage greeting.groupId greeting.id)).1 = .ok (some m') ∧ m'.IsOf greeting := by
  have hfresh : FreshSends (exchange.take 3) := exchange_freshSends.sublist (List.take_sublist 3 exchange)
  obtain ⟨more, hmore, hsettled, hkept⟩ := machines_settle twoMachines_fresh hfresh greeting.groupId
  have hread : (((twoMachines.run (exchange.take 3)).dbs true).run (getMessage greeting.groupId greeting.id)).1 =
      .ok (some greeting) := by decide +kernel
  have hknows : Knows ((twoMachines.run (exchange.take 3)).dbs false) greeting.groupId :=
    ⟨renamed Str.empty, by decide +kernel⟩
  exact ⟨more, hmore, hsettled, hkept true greeting.id greeting hread false hknows⟩

end Runs

end ZeroSdk.Group
