/-
What the streams of `InMemoryGridBroker` carry.

`broker_delivers`: over every interleaving of publishes, subscriptions and
faults, what a stream was sent, what publishes in flight still owe it and what
they took with them when they were cancelled are, up to their order, the
copies that were owed at its subscription and those of every publish on its
topic until the topic is unsubscribed. What was owed was published on the
topic too (`owed_published`), and the copies are counted by the faults that
were injected (`injected`, `copies`), not by what the broker planned.

`broker_reads`: a reader gets a sublist of what was sent, all of it unless
more than 256 messages were, and is told that the subscription is closed only
when it has read on to the end and nothing can be sent any more.
-/
import ZeroSdk.Network.Broker

namespace ZeroSdk.Mock
open Interleave
open Grid (SectorBytes)

variable {b b' : Broker} {s : BroadcastStream} {i : Nat}

/-! ## Steps of a run -/

theorem run_numbered (h : Numbered b) (acts : List Act) : Numbered (run Broker.turn b acts) := by
  refine run_inv (I := fun b _ => Numbered b) h (fun b tr a h => ?_) acts
  exact (step_step h a).numbered

theorem after_append (acts acts' : List Act) : after (acts ++ acts') = run Broker.turn (after acts) acts' :=
  run_append _ _ _ _

theorem after_step (acts : List Act) (a : Act) : after (acts ++ [a]) = step Broker.turn (after acts) a := run_concat _ _ _ _

/-- What the drains of a run showed. -/
def drained (tr : List (Act × Shown)) : List (String × SectorBytes) :=
  tr.flatMap fun x =>
    match x.2 with
    | .drained published => published
    | _ => []

/-- A publish that goes on, one that is cancelled and a poll leave the shared
state. -/
theorem state_step (b : Broker) {a : Act} (ha : a = .resume i ∨ a = .cancel i ∨ a = .poll i) :
    (step Broker.turn b a).state = b.state ∧ drained (label Broker.turn b a) = [] := by
  rcases step_cases Broker.turn b a with ⟨-, hs, hl⟩ | ⟨l, b', ht, hs, hl⟩ <;> rw [hs, hl]
  · exact ⟨rfl, rfl⟩
  · rcases ha with rfl | rfl | rfl
    · simp only [Broker.turn, Option.map_eq_some_iff, Prod.mk.injEq] at ht
      obtain ⟨p, -, rfl, rfl⟩ := ht
      refine ⟨?_, rfl⟩
      unfold Broker.resume
      split
      · rfl
      · split <;> rfl
    · simp only [Broker.turn] at ht
      split at ht
      · split at ht <;> cases ht
        exact ⟨rfl, rfl⟩
      · cases ht
    · simp only [Broker.turn, Option.map_eq_some_iff, Prod.mk.injEq] at ht
      obtain ⟨s, -, rfl, rfl⟩ := ht
      exact ⟨rfl, rfl⟩

theorem state_getOrCreateSender (b : Broker) (topic : String) :
    (b.getOrCreateSender topic).2.state.published = b.state.published ∧
      (b.getOrCreateSender topic).2.state.faults = b.state.faults := by
  rcases getOrCreateSender_cases b topic with ⟨sender, -, heq⟩ | ⟨-, heq⟩ <;> rw [heq] <;> exact ⟨rfl, rfl⟩

theorem state_publish (b : Broker) (topic : String) (sectorBytes : SectorBytes) :
    (b.publish topic sectorBytes).state.published = b.state.published ++ [(topic, sectorBytes)] ∧
      (b.publish topic sectorBytes).state.faults = b.state.faults := by
  have hstate := state_getOrCreateSender (b.note topic sectorBytes) topic
  obtain ⟨sender, b', hnote⟩ : ∃ sender b', (b.note topic sectorBytes).getOrCreateSender topic = (sender, b') := ⟨_, _, rfl⟩
  rw [hnote] at hstate
  rcases publish_cases hnote with ⟨-, heq⟩ | ⟨_, heq⟩ <;> rw [heq] <;> exact hstate

/-! ## Faults -/

theorem faults_step (b : Broker) (a : Act) (topic : String) :
    (step Broker.turn b a).state.faults topic = a.faults topic (b.state.faults topic) := by
  cases a with
  | publish t sectorBytes => exact congrFun (state_publish b t sectorBytes).2 topic
  | subscribe t => exact congrFun (state_getOrCreateSender b t).2 topic
  | injectFault t fault =>
    change Function.update b.state.faults t (b.state.faults t ++ [fault]) topic = if t = topic then _ else _
    by_cases heq : topic = t
    · subst heq
      rw [Function.update_self, if_pos rfl]
    · rw [Function.update_of_ne heq, if_neg (Ne.symm heq)]
  | resume i => exact congrFun (congrArg _ (state_step b (.inl rfl)).1) topic
  | cancel i => exact congrFun (congrArg _ (state_step b (.inr (.inl rfl))).1) topic
  | poll i => exact congrFun (congrArg _ (state_step b (.inr (.inr rfl))).1) topic
  | _ => rfl

theorem faults_after (acts : List Act) (topic : String) : (after acts).state.faults topic = injected topic acts := by
  induction acts using List.reverseRecOn with
  | nil => rfl
  | append_singleton acts a ih =>
    rw [after_step, faults_step, ih, injected, injected, List.foldl_append]
    rfl

theorem added_after (topic : String) (acts : List Act) (a : Act) : added topic (after acts) a = copied topic acts a := by
  cases a with
  | publish t sectorBytes => rw [added, copied, faults_after]
  | _ => rfl

/-! ## Delivery -/

/-- From a state on, a stream gets what is owed on its channel and the window
of its topic, if the topic still has the channel. -/
theorem run_stream {earlier : List Act} (hs : (after earlier).streams[i]? = some s) (acts : List Act) :
    ∃ s', (after (earlier ++ acts)).streams[i]? = some s' ∧ s'.topic = s.topic ∧ s'.channel = s.channel ∧
      (s'.rx.sent ++ owed s.channel (after (earlier ++ acts)).publishing ++
          cancelled s.channel (after earlier) acts).Perm
        (s.rx.sent ++ owed s.channel (after earlier).publishing ++
          (if (after earlier).state.topics s.topic = some s.channel then window s.topic earlier acts else [])) := by
  induction acts generalizing earlier s with
  | nil =>
    rw [List.append_nil]
    exact ⟨s, hs, rfl, rfl, by simp [cancelled, window]⟩
  | cons a acts ih =>
    obtain ⟨s', hs', hstream⟩ := (step_step (run_numbered .new earlier) a).streams i s hs
    rw [← after] at hs' hstream
    rw [← after_step] at hs' hstream
    obtain ⟨s'', hs'', htopic, hchannel, hbalance⟩ := ih hs'
    rw [← List.append_cons] at hs'' hbalance
    refine ⟨s'', hs'', htopic.trans hstream.topic, hchannel.trans hstream.channel, ?_⟩
    rw [hstream.channel, hstream.topic] at hbalance
    -- what the step adds to the window
    have hwindow : (if (after earlier).state.topics s.topic = some s.channel then window s.topic earlier (a :: acts) else []) =
        (if (after earlier).state.topics s.topic = some s.channel then added s.topic (after earlier) a else []) ++
          (if (after (earlier ++ [a])).state.topics s.topic = some s.channel then window s.topic (earlier ++ [a]) acts
            else []) := by
      rw [added_after]
      by_cases hmapped : (after earlier).state.topics s.topic = some s.channel
      · by_cases ha : a = .unsubscribe s.topic
        · rw [if_neg fun hm => (hstream.mapped.mp hm).2 ha, window, if_pos ha, ha, if_pos hmapped, if_pos hmapped]
          rfl
        · rw [if_pos hmapped, if_pos hmapped, if_pos (hstream.mapped.mpr ⟨hmapped, ha⟩), window, if_neg ha]
      · rw [if_neg hmapped, if_neg hmapped, if_neg fun hm => hmapped (hstream.mapped.mp hm).1]
        rfl
    rw [hwindow, List.perm_iff_count]
    intro x
    have hnow := hstream.balance.count_eq x
    have hrest := hbalance.count_eq x
    simp only [List.count_append, cancelled, ← after_step] at hnow hrest ⊢
    omega

/-- A step at the end of a topic's life on a channel. -/
theorem window_concat {topic : String} {old life : List Act} (hlife : .unsubscribe topic ∉ life) {a : Act}
    (ha : a ≠ .unsubscribe topic) :
    window topic old (life ++ [a]) = window topic old life ++ copied topic (old ++ life) a := by
  induction life generalizing old with
  | nil => simp [window, if_neg ha]
  | cons a' life ih =>
    have ha' : a' ≠ .unsubscribe topic := fun heq => hlife (heq ▸ List.mem_cons_self)
    have hsplit : old ++ a' :: life = old ++ [a'] ++ life := List.append_cons ..
    rw [List.cons_append, window, window, if_neg ha', if_neg ha', ih fun hmem => hlife (List.mem_cons_of_mem _ hmem),
      hsplit, List.append_assoc (copied topic old a')]

/-- What is owed on a topic's channel was published on the topic, since it
was last unsubscribed. -/
theorem owed_published (acts : List Act) {topic : String} {channel : Nat}
    (ht : (after acts).state.topics topic = some channel) :
    ∃ old life, acts = old ++ life ∧ .unsubscribe topic ∉ life ∧
      (owed channel (after acts).publishing).Subperm (window topic old life) := by
  induction acts using List.reverseRecOn with
  | nil => cases ht
  | append_singleton acts a ih =>
    have hstep := step_step (run_numbered .new acts) a
    rw [after_step] at ht ⊢
    obtain ⟨ha, hmapped, howed⟩ := hstep.channels topic channel ht
    rw [← after, added_after] at howed
    rcases hmapped with hmapped | hnew
    · obtain ⟨old, life, rfl, hlife, hold⟩ := ih hmapped
      refine ⟨old, life ++ [a], (List.append_assoc ..), ?_, ?_⟩
      · rw [List.mem_append, List.mem_singleton]
        exact not_or.mpr ⟨hlife, Ne.symm ha⟩
      · rw [window_concat hlife ha]
        exact howed.trans ((List.subperm_append_right _).mpr hold)
    · refine ⟨acts, [a], rfl, ?_, ?_⟩
      · rw [List.mem_singleton]
        exact Ne.symm ha
      · rw [← after] at hnew
        rw [hnew] at howed
        rw [window, if_neg ha, window, List.append_nil]
        exact howed

theorem subscribed (pre : List Act) (topic : String) :
    ∃ channel, (after (pre ++ [.subscribe topic])).streams[(after pre).streams.length]? = some ⟨topic, channel, .fresh⟩ ∧
      (after (pre ++ [.subscribe topic])).state.topics topic = some channel := by
  have hsender := (run_numbered .new pre).getOrCreateSender topic
  obtain ⟨sender, b', heq⟩ : ∃ sender b', (run Broker.turn .new pre).getOrCreateSender topic = (sender, b') := ⟨_, _, rfl⟩
  have hsubscribe : after (pre ++ [.subscribe topic]) = { b' with streams := b'.streams ++ [⟨topic, sender, .fresh⟩] } := by
    rw [after_step]
    change (run Broker.turn .new pre).subscribe topic = _
    rw [Broker.subscribe, heq]
  rw [heq] at hsender
  refine ⟨sender, ?_, ?_⟩
  · rw [hsubscribe, after, ← hsender.streams]
    exact List.getElem?_concat_length
  · rw [hsubscribe]
    exact hsender.mapped

/-- A publish in flight, once it is awake, returns in a turn for each copy and
one more. -/
theorem run_resume {channel : Nat} {sectorBytes : SectorBytes} {copies : Nat} {rest : List Publishing}
    (h : b.publishing = ⟨channel, sectorBytes, copies, false⟩ :: rest) :
    (run Broker.turn b (List.replicate (copies + 1) (.resume 0))).publishing = rest := by
  induction copies generalizing b with
  | zero => simp [run, step, Broker.turn, Broker.resume, h]
  | succ copies ih =>
    rw [List.replicate_succ, run_cons]
    refine ih ?_
    simp [step, Broker.turn, Broker.resume, Broker.send, h]

/-- What is in flight can be carried to its end, from every state. -/
theorem publishing_done (b : Broker) : ∃ turns, (run Broker.turn b (List.replicate turns (.resume 0))).publishing = [] := by
  generalize hl : b.publishing = l
  induction l generalizing b with
  | nil => exact ⟨0, hl⟩
  | cons p rest ih =>
    obtain ⟨channel, sectorBytes, copies, asleep⟩ := p
    obtain ⟨turns, hrest⟩ : ∃ turns, (run Broker.turn b (List.replicate turns (.resume 0))).publishing = rest := by
      cases asleep with
      | false => exact ⟨copies + 1, run_resume hl⟩
      | true =>
        -- its first turn wakes it up
        have hawake : (step Broker.turn b (.resume 0)).publishing = ⟨channel, sectorBytes, copies, false⟩ :: rest := by
          simp [step, Broker.turn, Broker.resume, hl]
        refine ⟨copies + 1 + 1, ?_⟩
        rw [List.replicate_succ, run_cons]
        exact run_resume hawake
    obtain ⟨more, hdone⟩ := ih _ hrest
    refine ⟨turns + more, ?_⟩
    rw [List.replicate_add, run_append]
    exact hdone

/-- **What a stream is sent**, over every interleaving: with what is still owed
and what was cancelled, it is what was owed on its channel when it subscribed
and the copies of every publish on its topic until the topic is unsubscribed;
and what was owed on its channel are such copies too, of publishes on its
topic since the topic was last unsubscribed. What is still owed can always be
sent, by turns of the publishes in flight alone. -/
theorem broker_delivers (pre : List Act) (topic : String) (post : List Act) :
    let opened := pre ++ [.subscribe topic]
    ∃ s, (after (opened ++ post)).streams[(after pre).streams.length]? = some s ∧ s.topic = topic ∧
      (s.rx.sent ++ owed s.channel (after (opened ++ post)).publishing ++
          cancelled s.channel (after opened) post).Perm
        (owed s.channel (after opened).publishing ++ window topic opened post) ∧
      (∃ old life, opened = old ++ life ∧ .unsubscribe topic ∉ life ∧
        (owed s.channel (after opened).publishing).Subperm (window topic old life)) ∧
      ∃ turns, (after (opened ++ post ++ List.replicate turns (.resume 0))).publishing = [] := by
  intro opened
  obtain ⟨channel, hs₀, hmapped⟩ := subscribed pre topic
  obtain ⟨s, hs, htopic, hchannel, hbalance⟩ := run_stream hs₀ post
  rw [if_pos hmapped] at hbalance
  refine ⟨s, hs, htopic, ?_⟩
  rw [hchannel]
  refine ⟨hbalance, owed_published opened hmapped, ?_⟩
  obtain ⟨turns, hdone⟩ := publishing_done (after (opened ++ post))
  exact ⟨turns, by rw [after_append]; exact hdone⟩

/-- A delayed message reaches a stream after one that was published later, and
after its topic is unsubscribed. -/
example : (after [.subscribe "inbox", .injectFault "inbox" (.delay 5), .publish "inbox" [1], .clearFaults,
    .publish "inbox" [2], .resume 1, .resume 1, .unsubscribe "inbox", .resume 0, .resume 0]).streams.map (·.rx.sent) =
      [[[2], [1]]] := by decide

/-! ## The log -/

/-- The messages published in a run, dropped ones too. -/
def publishes (acts : List Act) : List (String × SectorBytes) :=
  acts.filterMap fun
    | .publish topic sectorBytes => some (topic, sectorBytes)
    | _ => none

theorem published_step (b : Broker) (a : Act) :
    drained (label Broker.turn b a) ++ (step Broker.turn b a).state.published = b.state.published ++ publishes [a] := by
  have hquiet : ∀ {i : Nat}, a = .resume i ∨ a = .cancel i ∨ a = .poll i →
      drained (label Broker.turn b a) ++ (step Broker.turn b a).state.published = b.state.published ++ [] := by
    intro i ha
    obtain ⟨hstate, hdrained⟩ := state_step b ha
    rw [hstate, hdrained, List.nil_append, List.append_nil]
  cases a with
  | publish topic sectorBytes => exact (state_publish b topic sectorBytes).1
  | subscribe topic => exact (state_getOrCreateSender b topic).1.trans (List.append_nil _).symm
  | resume i => exact hquiet (.inl rfl)
  | cancel i => exact hquiet (.inr (.inl rfl))
  | poll i => exact hquiet (.inr (.inr rfl))
  | drainPublished => simp [drained, label, step, Broker.turn, publishes]
  | _ => exact (List.append_nil _).symm

/-- Every message that was published is in the log once, in the order of
publishing, until it is drained. -/
theorem drained_published (acts : List Act) :
    drained (trace Broker.turn .new acts) ++ (after acts).state.published = publishes acts := by
  induction acts using List.reverseRecOn with
  | nil => rfl
  | append_singleton acts a ih =>
    have hpublishes : publishes (acts ++ [a]) = publishes acts ++ publishes [a] := List.filterMap_append
    have htrace : drained (trace Broker.turn .new (acts ++ [a])) =
        drained (trace Broker.turn .new acts) ++ drained (label Broker.turn (after acts) a) := by
      rw [trace_concat]
      exact List.flatMap_append
    rw [htrace, List.append_assoc, after_step, published_step, ← List.append_assoc, ih, hpublishes]

/-! ## Reading -/

/-- What was read from the stream of an index. -/
def read (i : Nat) (tr : List (Act × Shown)) : List (Except NetworkError SectorBytes) :=
  tr.filterMap fun x =>
    match x.2 with
    | .polled j item => if j = i then item else none
    | _ => none

theorem read_append (i : Nat) (tr tr' : List (Act × Shown)) : read i (tr ++ tr') = read i tr ++ read i tr' :=
  List.filterMap_append

/-- What was read from a stream: messages, with those it fell behind left out,
and nothing but the end after the end. -/
structure Told (b : Broker) (s : BroadcastStream) (got : List (Except NetworkError SectorBytes))
    (items : List (Broadcast.Item SectorBytes)) (ends : Nat) : Prop where
  got : got = (Broadcast.values items).map .ok ++ List.replicate ends (.error .subscriptionClosed)
  faithful : Broadcast.Faithful s.rx items
  lossless : ∀ n, .error n ∈ items → channelCapacity < s.rx.sent.length
  ended : 0 < ends → s.rx.next = s.rx.sent.length ∧ ¬ b.Open s

theorem StreamStep.open_of (h : StreamStep b a b' i s s') : b'.Open s' → b.Open s := by
  rintro (hmapped | ⟨p, hp, heq⟩)
  · rw [h.topic, h.channel] at hmapped
    exact .inl (h.mapped.mp hmapped).1
  · exact h.opened ⟨p, hp, heq.trans h.channel⟩

section Told
variable {got : List (Except NetworkError SectorBytes)} {items : List (Broadcast.Item SectorBytes)} {ends : Nat}

/-- Before its end was read, a stream may have more to read. -/
theorem Told.ends_eq_zero (h : Told b s got items ends) (hlt : s.rx.next < s.rx.sent.length) : ends = 0 := by
  by_contra hpos
  exact absurd (h.ended (Nat.pos_of_ne_zero hpos)).1 (Nat.ne_of_lt hlt)

theorem Told.step {a : Act} {s' : BroadcastStream} (h : Told b s got items ends) (hs : StreamStep b a b' i s s')
    (ha : a ≠ .poll i) : Told b' s' got items ends := by
  have hnext := hs.next ha
  rcases hs.sent with hsame | ⟨hopen, sectorBytes, hsent⟩
  · have hrx : s'.rx = s.rx := Broadcast.Receiver.ext hsame hnext
    refine ⟨h.got, hrx ▸ h.faithful, hrx ▸ h.lossless, fun hpos => ?_⟩
    obtain ⟨hend, hclosed⟩ := h.ended hpos
    exact ⟨hrx ▸ hend, fun hopen => hclosed (hs.open_of hopen)⟩
  · have hrx : s'.rx = s.rx.send sectorBytes := Broadcast.Receiver.ext hsent hnext
    refine ⟨h.got, hrx ▸ h.faithful.send sectorBytes, fun n hn => ?_, fun hpos => absurd hopen (h.ended hpos).2⟩
    have hlost := h.lossless n hn
    rw [hsent, List.length_append]
    omega

theorem Told.poll (h : Told b s got items ends) (hb' : ∀ s', b'.Open s' ↔ b.Open s') :
    ∃ items' ends', Told b' (s.tryRecv b).2 (got ++ (s.tryRecv b).1.item.toList) items' ends' := by
  have hfaithful := h.faithful.recv channelCapacity
  have hopen : b'.Open (s.tryRecv b).2 ↔ b.Open s := by
    rw [hb', tryRecv_stream]
    exact Iff.rfl
  have hrx : (s.tryRecv b).2.rx = (s.rx.recv channelCapacity).2 := by rw [tryRecv_stream]
  rw [← hrx] at hfaithful
  have hsent : (s.tryRecv b).2.rx.sent = s.rx.sent := by
    rw [hrx]
    exact Broadcast.Receiver.recv_sent _ _
  rcases Broadcast.Receiver.recv_cases channelCapacity h.faithful.next_le with
    ⟨skipped, hpos, hlen, heq⟩ | ⟨x, hx, heq⟩ | ⟨hend, heq⟩
  · have hitem : (s.tryRecv b).1 = .lagged skipped := by
      unfold BroadcastStream.tryRecv
      rw [heq]
    obtain rfl := h.ends_eq_zero (by omega)
    rw [heq] at hfaithful
    refine ⟨_, 0, ?_, hfaithful, fun n hn => ?_, fun hpos => absurd hpos (Nat.lt_irrefl 0)⟩
    · rw [hitem, h.got, Broadcast.values_append]
      simp [TryRecv.item, Broadcast.values, Except.toOption]
    · rw [hsent]
      omega
  · have hitem : (s.tryRecv b).1 = .ok x := by
      unfold BroadcastStream.tryRecv
      rw [heq]
    obtain rfl := h.ends_eq_zero (List.getElem?_eq_some_iff.mp hx).1
    rw [heq] at hfaithful
    refine ⟨_, 0, ?_, hfaithful, fun n hn => ?_, fun hpos => absurd hpos (Nat.lt_irrefl 0)⟩
    · rw [hitem, h.got, Broadcast.values_append]
      simp [TryRecv.item, Broadcast.values, Except.toOption]
    · rw [hsent]
      refine h.lossless n ?_
      simpa using hn
  · have hitem : (s.tryRecv b).1 = if b.Open s then .empty else .closed := by
      unfold BroadcastStream.tryRecv
      rw [heq]
    have hrx' : (s.tryRecv b).2.rx = s.rx := by rw [hrx, heq]
    rw [heq, Option.toList_none, List.append_nil] at hfaithful
    by_cases ho : b.Open s
    · rw [if_pos ho] at hitem
      refine ⟨items, ends, ?_, hfaithful, hrx' ▸ h.lossless, fun hpos => absurd ho (h.ended hpos).2⟩
      rw [hitem, h.got]
      exact List.append_nil _
    · rw [if_neg ho] at hitem
      refine ⟨items, ends + 1, ?_, hfaithful, hrx' ▸ h.lossless, fun _ => ⟨hrx' ▸ hend, fun hopen' => ho (hopen.mp hopen')⟩⟩
      rw [hitem, h.got, List.replicate_succ', List.append_assoc]
      rfl

end Told

theorem read_label {a : Act} (ha : a ≠ .poll i) (b : Broker) : read i (label Broker.turn b a) = [] := by
  unfold label
  split
  · rfl
  · next l b' ht =>
    cases a with
    | poll j =>
      simp only [Broker.turn, Option.map_eq_some_iff, Prod.mk.injEq] at ht
      obtain ⟨s, -, rfl, -⟩ := ht
      have hne : j ≠ i := fun heq => ha (heq ▸ rfl)
      simp [read, hne]
    | cancel j =>
      simp only [Broker.turn] at ht
      split at ht
      · split at ht <;> cases ht
        rfl
      · cases ht
    | resume j =>
      simp only [Broker.turn, Option.map_eq_some_iff, Prod.mk.injEq] at ht
      obtain ⟨p, -, rfl, -⟩ := ht
      rfl
    | _ =>
      cases ht
      rfl

theorem step_told (h : Numbered b) (hs : b.streams[i]? = some s) {got : List (Except NetworkError SectorBytes)}
    {items : List (Broadcast.Item SectorBytes)} {ends : Nat} (htold : Told b s got items ends) (a : Act) :
    ∃ s' items' ends', (step Broker.turn b a).streams[i]? = some s' ∧
      Told (step Broker.turn b a) s' (got ++ read i (label Broker.turn b a)) items' ends' := by
  by_cases ha : a = .poll i
  · subst ha
    have hlt := (List.getElem?_eq_some_iff.mp hs).1
    have hturn : Broker.turn (.poll i) b =
        some (.polled i (s.tryRecv b).1.item, { b with streams := b.streams.set i (s.tryRecv b).2 }) := by
      simp only [Broker.turn, hs, Option.map_some]
    have hopen : ∀ s', Broker.Open { b with streams := b.streams.set i (s.tryRecv b).2 } s' ↔ b.Open s' := fun _ => Iff.rfl
    obtain ⟨items', ends', hpolled⟩ := htold.poll hopen
    refine ⟨(s.tryRecv b).2, items', ends', ?_, ?_⟩
    · rw [step, hturn]
      exact List.getElem?_set_self hlt
    · rw [step, label, hturn]
      have hread : read i [(Act.poll i, Shown.polled i (s.tryRecv b).1.item)] = (s.tryRecv b).1.item.toList := by
        simp only [read, List.filterMap_cons, List.filterMap_nil, if_true]
        cases (s.tryRecv b).1.item <;> rfl
      rw [hread]
      exact hpolled
  · obtain ⟨s', hs', hstream⟩ := (step_step h a).streams i s hs
    refine ⟨s', items, ends, hs', ?_⟩
    rw [read_label ha, List.append_nil]
    exact htold.step hstream ha

theorem run_told (h : Numbered b) (hs : b.streams[i]? = some s) {got : List (Except NetworkError SectorBytes)}
    {items : List (Broadcast.Item SectorBytes)} {ends : Nat} (htold : Told b s got items ends) (acts : List Act) :
    ∃ s' items' ends', (run Broker.turn b acts).streams[i]? = some s' ∧
      Told (run Broker.turn b acts) s' (got ++ read i (trace Broker.turn b acts)) items' ends' := by
  induction acts generalizing b s got items ends with
  | nil => exact ⟨s, items, ends, hs, (List.append_nil got).symm ▸ htold⟩
  | cons a acts ih =>
    obtain ⟨s', items', ends', hs', htold'⟩ := step_told h hs htold a
    obtain ⟨s'', items'', ends'', hs'', htold''⟩ := ih (step_step h a).numbered hs' htold'
    rw [List.append_assoc, ← read_append] at htold''
    exact ⟨s'', items'', ends'', hs'', htold''⟩

theorem run_closed (h : Numbered b) (hs : b.streams[i]? = some s) (hclosed : ¬ b.Open s) (more : List Act) :
    ∃ s', (run Broker.turn b more).streams[i]? = some s' ∧ s'.rx.sent = s.rx.sent := by
  induction more generalizing b s with
  | nil => exact ⟨s, hs, rfl⟩
  | cons a more ih =>
    have hstep := step_step h a
    obtain ⟨s', hs', hstream⟩ := hstep.streams i s hs
    obtain ⟨s'', hs'', hsent⟩ := ih hstep.numbered hs' fun hopen => hclosed (hstream.open_of hopen)
    exact ⟨s'', hs'', hsent.trans (hstream.sent.resolve_right fun hopen => hclosed hopen.1)⟩

/-- When a poll gives nothing: the reader has caught up and more may come, or
it has fallen more than 256 behind. -/
theorem poll_none_iff (hs : s.rx.next ≤ s.rx.sent.length) :
    (s.tryRecv b).1.item = none ↔
      s.rx.next = s.rx.sent.length ∧ b.Open s ∨ s.rx.next + channelCapacity < s.rx.sent.length := by
  rcases Broadcast.Receiver.recv_cases channelCapacity hs with ⟨skipped, hpos, hlen, heq⟩ | ⟨x, hx, heq⟩ | ⟨hend, heq⟩
  · refine iff_of_true ?_ (.inr (by omega))
    unfold BroadcastStream.tryRecv
    rw [heq]
    rfl
  · have hlt := (List.getElem?_eq_some_iff.mp hx).1
    have hnear : ¬ s.rx.next + channelCapacity < s.rx.sent.length := by
      intro hlag
      unfold Broadcast.Receiver.recv at heq
      rw [if_pos (by omega)] at heq
      cases heq
    refine iff_of_false ?_ fun hor => hor.elim (fun hend => Nat.ne_of_lt hlt hend.1) hnear
    unfold BroadcastStream.tryRecv
    rw [heq]
    exact Option.some_ne_none _
  · have hnear : ¬ s.rx.next + channelCapacity < s.rx.sent.length := by omega
    unfold BroadcastStream.tryRecv
    rw [heq, or_iff_left hnear, and_iff_right hend]
    by_cases ho : b.Open s <;> simp [ho, TryRecv.item]

/-- A reader that has fallen behind goes on with the oldest message kept. -/
theorem poll_lagged (hlag : s.rx.next + channelCapacity < s.rx.sent.length) :
    (s.tryRecv b).2.rx.next = s.rx.sent.length - channelCapacity := by
  rw [tryRecv_stream]
  unfold Broadcast.Receiver.recv
  rw [if_pos (by omega)]

/-- **What a reader gets**, over every interleaving and at any pace: messages
that were sent to the stream, in order, all of them as long as no more than
256 were sent. The next poll gives nothing only if all is read and more may
come, or if the reader has fallen more than 256 behind, from where it goes on
with the last 256. Once all is read and no sender is left, the reader is told
that the subscription is closed, again and again, and nothing is sent to the
stream any more. -/
theorem broker_reads (pre : List Act) (topic : String) (post : List Act) :
    let opened := pre ++ [.subscribe topic]
    let b := after (opened ++ post)
    let i := (after pre).streams.length
    ∃ s received ends, b.streams[i]? = some s ∧
      read i (trace Broker.turn (after opened) post) =
        received.map .ok ++ List.replicate ends (.error .subscriptionClosed) ∧
      received.Sublist (s.rx.sent.take s.rx.next) ∧
      (s.rx.sent.length ≤ channelCapacity → received = s.rx.sent.take s.rx.next) ∧
      ((s.tryRecv b).1.item = none ↔
        s.rx.next = s.rx.sent.length ∧ b.Open s ∨ s.rx.next + channelCapacity < s.rx.sent.length) ∧
      (s.rx.next + channelCapacity < s.rx.sent.length →
        (s.tryRecv b).2.rx.next = s.rx.sent.length - channelCapacity) ∧
      (0 < ends → s.rx.next = s.rx.sent.length ∧ ¬ b.Open s ∧
        ∀ more, ∃ s', (after (opened ++ post ++ more)).streams[i]? = some s' ∧ s'.rx.sent = s.rx.sent) := by
  intro opened b i
  obtain ⟨channel, hs₀, -⟩ := subscribed pre topic
  have hnumbered : Numbered (after opened) := run_numbered .new _
  have hfresh : Told (after opened) ⟨topic, channel, .fresh⟩ [] [] 0 :=
    ⟨rfl, .fresh, fun _ hn => (by cases hn), fun hpos => absurd hpos (Nat.lt_irrefl 0)⟩
  obtain ⟨s, items, ends, hs, htold⟩ := run_told hnumbered hs₀ hfresh post
  rw [← after_append] at hs htold
  refine ⟨s, Broadcast.values items, ends, hs, htold.got, htold.faithful.accounts.values_sublist, fun hlen => ?_,
    poll_none_iff htold.faithful.next_le, poll_lagged, fun hpos => ?_⟩
  · exact htold.faithful.accounts.values_eq fun n hn => absurd (htold.lossless n hn) (Nat.not_lt.mpr hlen)
  · obtain ⟨hend, hclosed⟩ := htold.ended hpos
    refine ⟨hend, hclosed, fun more => ?_⟩
    rw [after_append]
    exact run_closed (run_numbered .new _) hs hclosed more

end ZeroSdk.Mock
