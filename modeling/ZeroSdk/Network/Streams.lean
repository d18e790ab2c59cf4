/-
What a stream of `RealGridClient::subscribe` holds. Gossip goes to a topic's
broadcast sender, and a stream is a receiver on the sender its call found or
made, so what it gets is decided by the identity of channels: two topics
never share one, a sender that was removed never comes back, and a channel
made later has another number (`Numbered`).

`stream_window`: in every run, a call that returned a stream finds in it
exactly the gossip that was fanned out on its topic from its registration to
the first removal of the topic's sender after that, in order and each once.

A caller reads the stream through a broadcast channel that keeps the last
256 messages. `reads_account`: whatever the pace, the items are that gossip
in order, with every message that was lost counted by a lag error.
-/
import ZeroSdk.Lib.Broadcast
import ZeroSdk.Network.Subscriptions

namespace ZeroSdk.Grid
open Interleave

variable {κ ν : Type} [DecidableEq κ]

/-! ## What goes to a topic -/

/-- The gossip a turn fans out on the topic. -/
def fannedOut (topic : String) (s : Client κ ν) : Agent κ ν → List SectorBytes
  | .fanOut =>
    match s.gossip with
    | some (t, data) => if t = topic then [data] else []
    | none => []
  | _ => []

/-- Whether a turn removes the topic's sender. -/
def removes (calls : κ → Call) (topic : String) (s : Client κ ν) : Agent κ ν → Bool
  | .call u =>
    match s.phase u with
    | .removing _ => (calls u).topic = topic
    | _ => false
  | _ => false

/-- The gossip fanned out on a topic from a state on, up to the first removal
of its sender. -/
def window (svc : NetworkService ν) (calls : κ → Call) (topic : String) (s : Client κ ν) :
    List (Agent κ ν) → List SectorBytes
  | [] => []
  | i :: sched =>
    if removes calls topic s i then []
    else fannedOut topic s i ++ window svc calls topic (step (Client.turn svc calls) s i) sched

/-! ## Channels -/

/-- Channels are numbered as they are made, and each is of one topic. -/
structure Numbered (calls : κ → Call) (s : Client κ ν) : Prop where
  topic_lt : ∀ topic ch, s.topics topic = some ch → ch < s.channels
  rx_lt : ∀ c ch, s.rx c = some ch → ch < s.channels
  topic_inj : ∀ topic topic' ch, s.topics topic = some ch → s.topics topic' = some ch → topic = topic'
  rx_topic : ∀ c topic ch, s.rx c = some ch → s.topics topic = some ch → (calls c).topic = topic
  /-- A call that has not registered has no receiver and no messages. -/
  unregistered : ∀ c, s.phase c = .registering → s.rx c = none ∧ s.streams c = []

variable {svc : NetworkService ν} {calls : κ → Call} {s s' : Client κ ν} {c : κ} {ch : Nat}

omit [DecidableEq κ] in
theorem Numbered.init (calls : κ → Call) (service : ν) : Numbered calls (Client.init calls service) := by
  refine ⟨fun _ _ h => ?_, fun _ _ h => ?_, fun _ _ _ h => ?_, fun _ _ _ h => ?_, fun _ _ => ⟨rfl, rfl⟩⟩ <;> cases h

theorem register_cases (s : Client κ ν) (c : κ) (topic : String) :
    ∃ sender channels, s.register c topic = { s with
        topics := Function.update s.topics topic (some sender)
        channels
        rx := Function.update s.rx c (some sender)
        phase := Function.update s.phase c .sending } ∧
      (s.topics topic = some sender ∧ channels = s.channels ∨
        s.topics topic = none ∧ sender = s.channels ∧ channels = s.channels + 1) := by
  unfold Client.register
  cases ht : s.topics topic with
  | none => exact ⟨_, _, rfl, .inr ⟨rfl, rfl, rfl⟩⟩
  | some sender => exact ⟨_, _, rfl, .inl ⟨rfl, rfl⟩⟩

omit [DecidableEq κ] in
/-- A step that makes no channel and gives nobody a receiver. -/
theorem Numbered.of_le (h : Numbered calls s) (hchannels : s'.channels = s.channels)
    (htopics : ∀ topic ch, s'.topics topic = some ch → s.topics topic = some ch)
    (hrx : ∀ c ch, s'.rx c = some ch → s.rx c = some ch)
    (hphase : ∀ c, s'.phase c = .registering → s.phase c = .registering)
    (hstreams : ∀ c, s.rx c = none → s'.streams c = s.streams c) : Numbered calls s' := by
  refine ⟨fun topic ch ht => ?_, fun c ch hr => ?_, fun topic topic' ch ht ht' => ?_, fun c topic ch hr ht => ?_,
    fun c hp => ?_⟩
  · rw [hchannels]
    exact h.topic_lt topic ch (htopics topic ch ht)
  · rw [hchannels]
    exact h.rx_lt c ch (hrx c ch hr)
  · exact h.topic_inj topic topic' ch (htopics _ _ ht) (htopics _ _ ht')
  · exact h.rx_topic c topic ch (hrx _ _ hr) (htopics _ _ ht)
  · obtain ⟨hnone, hempty⟩ := h.unregistered c (hphase c hp)
    refine ⟨?_, (hstreams c hnone).trans hempty⟩
    cases hr : s'.rx c with
    | none => rfl
    | some ch =>
      have hsome := hrx c ch hr
      rw [hnone] at hsome
      cases hsome

theorem Numbered.register (h : Numbered calls s) (hp : s.phase c = .registering) :
    Numbered calls (s.register c (calls c).topic) := by
  obtain ⟨sender, channels, heq, hsender⟩ := register_cases s c (calls c).topic
  rw [heq]
  have hlt : ∀ ch, ch < s.channels → ch < channels := by
    rcases hsender with ⟨-, rfl⟩ | ⟨-, -, rfl⟩
    · exact fun _ h => h
    · exact fun _ h => Nat.lt_succ_of_lt h
  have hsender_lt : sender < channels := by
    rcases hsender with ⟨ht, rfl⟩ | ⟨-, rfl, rfl⟩
    · exact h.topic_lt _ _ ht
    · exact Nat.lt_succ_self _
  -- whoever else is on the sender is on the topic
  have htopic : ∀ topic, s.topics topic = some sender → topic = (calls c).topic := by
    intro topic ht
    rcases hsender with ⟨ht', -⟩ | ⟨-, rfl, -⟩
    · exact h.topic_inj _ _ _ ht ht'
    · exact absurd (h.topic_lt _ _ ht) (lt_irrefl _)
  have hrx : ∀ c', s.rx c' = some sender → (calls c').topic = (calls c).topic := by
    intro c' hr
    rcases hsender with ⟨ht', -⟩ | ⟨-, rfl, -⟩
    · exact h.rx_topic _ _ _ hr ht'
    · exact absurd (h.rx_lt _ _ hr) (lt_irrefl _)
  have htopics : ∀ topic ch, Function.update s.topics (calls c).topic (some sender) topic = some ch →
      (topic = (calls c).topic ∧ ch = sender) ∨ s.topics topic = some ch := by
    intro topic ch ht
    by_cases heq : topic = (calls c).topic
    · subst heq
      rw [Function.update_self] at ht
      exact .inl ⟨rfl, (Option.some.inj ht).symm⟩
    · rw [Function.update_of_ne heq] at ht
      exact .inr ht
  have hreceivers : ∀ c' ch, Function.update s.rx c (some sender) c' = some ch →
      (c' = c ∧ ch = sender) ∨ s.rx c' = some ch := by
    intro c' ch hr
    by_cases heq : c' = c
    · subst heq
      rw [Function.update_self] at hr
      exact .inl ⟨rfl, (Option.some.inj hr).symm⟩
    · rw [Function.update_of_ne heq] at hr
      exact .inr hr
  refine ⟨fun topic ch ht => ?_, fun c' ch hr => ?_, fun topic topic' ch ht ht' => ?_, fun c' topic ch hr ht => ?_,
    fun c' hc' => ?_⟩
  · rcases htopics topic ch ht with ⟨-, rfl⟩ | hold
    · exact hsender_lt
    · exact hlt ch (h.topic_lt topic ch hold)
  · rcases hreceivers c' ch hr with ⟨-, rfl⟩ | hold
    · exact hsender_lt
    · exact hlt ch (h.rx_lt c' ch hold)
  · rcases htopics topic ch ht with ⟨rfl, rfl⟩ | hold
    · rcases htopics topic' _ ht' with ⟨rfl, -⟩ | hold'
      · rfl
      · exact (htopic topic' hold').symm
    · rcases htopics topic' ch ht' with ⟨rfl, rfl⟩ | hold'
      · exact htopic topic hold
      · exact h.topic_inj topic topic' ch hold hold'
  · rcases hreceivers c' ch hr with ⟨rfl, rfl⟩ | hold
    · rcases htopics topic _ ht with ⟨rfl, -⟩ | hold
      · rfl
      · exact (htopic topic hold).symm
    · rcases htopics topic ch ht with ⟨rfl, rfl⟩ | hold'
      · exact hrx c' hold
      · exact h.rx_topic c' topic ch hold hold'
  · have hne : c' ≠ c := by
      rintro rfl
      simp only [Function.update_self] at hc'
      cases hc'
    simp only [Function.update_of_ne hne] at hc' ⊢
    exact h.unregistered c' hc'

/-- `send_command` returns: all that changes is the call's phase, and its
receiver if it failed. -/
theorem settle_cases (s : Client κ ν) (c : κ) (call : Call) (outcome : Except NetworkError Unit) :
    ∃ p rx, s.settle c call outcome = { s with rx, phase := Function.update s.phase c p } ∧
      (p = .removing outcome ∨ p = .done outcome) ∧ (∀ c' ch, rx c' = some ch → s.rx c' = some ch) ∧
      (rx = s.rx ∨ (∃ e, p = .done (.error e)) ∧ ∀ c', c' ≠ c → rx c' = s.rx c') := by
  cases call with
  | subscribe topic =>
    cases outcome with
    | error e =>
      refine ⟨_, _, rfl, .inr rfl, fun c' ch hr => ?_, .inr ⟨⟨e, rfl⟩, fun c' hc => Function.update_of_ne hc _ _⟩⟩
      by_cases hcc : c' = c
      · subst hcc
        rw [Function.update_self] at hr
        cases hr
      · rw [Function.update_of_ne hcc] at hr
        exact hr
    | ok u => exact ⟨_, _, rfl, .inr rfl, fun _ _ h => h, .inl rfl⟩
  | unsubscribe topic => exact ⟨_, _, rfl, .inl rfl, fun _ _ h => h, .inl rfl⟩
  | publish topic data => exact ⟨_, _, rfl, .inr rfl, fun _ _ h => h, .inl rfl⟩

theorem Numbered.step {i : Agent κ ν} {l : Label κ} (h : Numbered calls s) (hs : Step svc calls s i l s') :
    Numbered calls s' := by
  cases hs with
  | register c hp => exact h.register hp
  | send c hp hrun =>
    refine h.of_le rfl (fun _ _ h => h) (fun _ _ h => h) (fun c' hc' => ?_) fun _ _ => rfl
    simp only [Client.send] at hc'
    by_cases hcc : c' = c
    · subst hcc
      rw [Function.update_self] at hc'
      cases hc'
    · rw [Function.update_of_ne hcc] at hc'
      exact hc'
  | settle c outcome hp hout =>
    obtain ⟨p, rx, heq, hkind, hrx, -⟩ := settle_cases s c (calls c) outcome
    rw [heq]
    refine h.of_le rfl (fun _ _ h => h) hrx (fun c' hc' => ?_) fun _ _ => rfl
    by_cases hcc : c' = c
    · subst hcc
      simp only [Function.update_self] at hc'
      rcases hkind with rfl | rfl <;> cases hc'
    · simp only [Function.update_of_ne hcc] at hc'
      exact hc'
  | remove c outcome hp =>
    refine h.of_le rfl (fun topic ch ht => ?_) (fun _ _ h => h) (fun c' hc' => ?_) fun _ _ => rfl
    · simp only [Client.remove] at ht
      by_cases heq : topic = (calls c).topic
      · subst heq
        rw [Function.update_self] at ht
        cases ht
      · rw [Function.update_of_ne heq] at ht
        exact ht
    · simp only [Client.remove] at hc'
      by_cases hcc : c' = c
      · subst hcc
        rw [Function.update_self] at hc'
        cases hc'
      · rw [Function.update_of_ne hcc] at hc'
        exact hc'
  | handle cmd rest hidle hq => exact h.of_le rfl (fun _ _ h => h) (fun _ _ h => h) (fun _ h => h) fun _ _ => rfl
  | receive topic data service hidle =>
    exact h.of_le rfl (fun _ _ h => h) (fun _ _ h => h) (fun _ h => h) fun _ _ => rfl
  | ignore service hidle => exact h.of_le rfl (fun _ _ h => h) (fun _ _ h => h) (fun _ h => h) fun _ _ => rfl
  | fanOut topic data hg =>
    refine h.of_le rfl (fun _ _ h => h) (fun _ _ h => h) (fun _ h => h) fun c hnone => ?_
    -- a call without a receiver is on no sender
    refine if_neg fun hsent => hsent.1 ?_
    rw [← hsent.2, hnone]
  | stop i hidle => exact h.of_le rfl (fun _ _ h => h) (fun _ _ h => h) (fun _ h => h) fun _ _ => rfl

/-! ## Runs -/

theorem phase_done {i : Agent κ ν} {l : Label κ} (hs : Step svc calls s i l s') {r : Except NetworkError Unit}
    (hdone : s.phase c = .done r) : s'.phase c = .done r := by
  have hother : ∀ c' p, s.phase c' ≠ .done r → Function.update s.phase c' p c = .done r := by
    intro c' p hc'
    have hne : c ≠ c' := by
      rintro rfl
      exact hc' hdone
    rw [Function.update_of_ne hne]
    exact hdone
  cases hs with
  | register c' hp =>
    obtain ⟨sender, channels, heq, -⟩ := register_cases s c' (calls c').topic
    rw [heq]
    exact hother c' _ (by rw [hp]; exact nofun)
  | send c' hp hrun => exact hother c' _ (by rw [hp]; exact nofun)
  | settle c' outcome hp hout =>
    obtain ⟨p, rx, heq, -⟩ := settle_cases s c' (calls c') outcome
    rw [heq]
    refine hother c' p ?_
    rcases hp with hp | hp <;> rw [hp] <;> exact nofun
  | remove c' outcome hp => exact hother c' _ (by rw [hp]; exact nofun)
  | handle cmd rest hidle hq => exact hdone
  | receive topic data service hidle => exact hdone
  | ignore service hidle => exact hdone
  | fanOut topic data hg => exact hdone
  | stop i hidle => exact hdone

omit [DecidableEq κ] in
theorem fannedOut_idle (topic : String) (hidle : s.gossip = none) (i : Agent κ ν) : fannedOut topic s i = [] := by
  cases i with
  | fanOut => simp only [fannedOut, hidle]
  | _ => rfl

theorem removes_turn (svc : NetworkService ν) {topic : String} {i : Agent κ ν} (h : removes calls topic s i = true) :
    ∃ u outcome, i = .call u ∧ Client.turn svc calls i s = some (.internal, s.remove u topic outcome) := by
  cases i with
  | call u =>
    cases hp : s.phase u with
    | removing outcome =>
      simp only [removes, hp, decide_eq_true_iff] at h
      refine ⟨u, outcome, rfl, ?_⟩
      simp only [Client.turn, Client.callTurn, hp, h, Option.map_some]
    | _ => simp [removes, hp] at h
  | _ => cases h

omit [DecidableEq κ] in
/-- Gossip on a topic reaches a receiver that is on the topic's channel, and
no other gossip reaches it. -/
theorem streams_fanOut (h : Numbered calls s) (hrx : s.rx c = some ch) {topic : String} {data : SectorBytes}
    (hg : s.gossip = some (topic, data)) :
    (s.fanOut topic data).streams c = s.streams c ++
      (if s.topics (calls c).topic = some ch then fannedOut (calls c).topic s .fanOut else []) := by
  simp only [Client.fanOut, fannedOut, hg, hrx]
  by_cases hopen : s.topics (calls c).topic = some ch
  · rw [if_pos hopen]
    by_cases heq : topic = (calls c).topic
    · subst heq
      rw [if_pos rfl, if_pos ⟨by rw [hopen]; exact Option.some_ne_none _, hopen.symm⟩]
    · rw [if_neg heq, List.append_nil, if_neg]
      rintro ⟨-, hsender⟩
      exact heq (h.topic_inj _ _ ch hsender.symm hopen)
  · rw [if_neg hopen, List.append_nil, if_neg]
    rintro ⟨-, hsender⟩
    rw [h.rx_topic c topic ch hrx hsender.symm] at hopen
    exact hopen hsender.symm

/-- Others' registrations neither put a channel back nor take it away. -/
theorem topics_register (h : Numbered calls s) (hrx : s.rx c = some ch) (c' : κ) (topic : String) :
    (s.register c' topic).topics (calls c).topic = some ch ↔ s.topics (calls c).topic = some ch := by
  obtain ⟨sender, channels, heq, hsender⟩ := register_cases s c' topic
  rw [heq]
  change Function.update s.topics topic (some sender) (calls c).topic = some ch ↔ _
  by_cases htopic : (calls c).topic = topic
  · rw [htopic, Function.update_self]
    rcases hsender with ⟨hold, -⟩ | ⟨hnone, rfl, -⟩
    · rw [hold]
    · -- a new channel is not the one the receiver is on
      rw [hnone]
      refine iff_of_false (fun hnew => ?_) nofun
      have hlt := h.rx_lt c ch hrx
      rw [Option.some.inj hnew] at hlt
      exact lt_irrefl _ hlt
  · rw [Function.update_of_ne htopic]

/-- What a step is to a call on a channel: the stream grows by what is fanned
out on the topic if the channel is still the topic's, which only a removal
changes. -/
structure Hears (calls : κ → Call) (c : κ) (ch : Nat) (s : Client κ ν) (i : Agent κ ν) (s' : Client κ ν) : Prop where
  rx : s'.rx c = some ch
  streams : s'.streams c = s.streams c ++
    (if s.topics (calls c).topic = some ch then fannedOut (calls c).topic s i else [])
  topics : s'.topics (calls c).topic = some ch ↔
    s.topics (calls c).topic = some ch ∧ removes calls (calls c).topic s i = false

omit [DecidableEq κ] in
theorem Hears.still {i : Agent κ ν} (hrx : s.rx c = some ch) (hrem : removes calls (calls c).topic s i = false)
    (hout : fannedOut (calls c).topic s i = []) (hrx' : s'.rx c = s.rx c) (hstreams : s'.streams c = s.streams c)
    (htopics : s'.topics (calls c).topic = some ch ↔ s.topics (calls c).topic = some ch) : Hears calls c ch s i s' := by
  refine ⟨hrx'.trans hrx, ?_, ?_⟩
  · rw [hstreams, hout, ite_self, List.append_nil]
  · rw [htopics, and_iff_left hrem]

theorem Numbered.hears {i : Agent κ ν} {l : Label κ} (h : Numbered calls s) (hrx : s.rx c = some ch)
    (ht : Client.turn svc calls i s = some (l, s')) (hlive : ∀ e, s'.phase c ≠ .done (.error e)) :
    Hears calls c ch s i s' := by
  by_cases hrem : removes calls (calls c).topic s i = true
  · obtain ⟨u, outcome, rfl, hturn⟩ := removes_turn svc hrem
    rw [hturn] at ht
    cases ht
    refine ⟨hrx, ?_, ?_⟩
    · simp [fannedOut, Client.remove]
    · simp [hrem, Client.remove]
  · rw [Bool.not_eq_true] at hrem
    cases turn_step ht with
    | register c' hp =>
      have hne : c ≠ c' := by
        rintro rfl
        rw [(h.unregistered _ hp).1] at hrx
        cases hrx
      refine .still hrx hrem rfl ?_ ?_ (topics_register h hrx c' _) <;>
        obtain ⟨sender, channels, heq, -⟩ := register_cases s c' (calls c').topic <;> rw [heq]
      exact Function.update_of_ne hne _ _
    | send c' hp hrun => exact .still hrx hrem rfl rfl rfl Iff.rfl
    | settle c' outcome hp hout =>
      obtain ⟨p, rx, heq, -, -, hkept⟩ := settle_cases s c' (calls c') outcome
      rw [heq] at hlive ⊢
      refine .still hrx hrem rfl ?_ rfl Iff.rfl
      rcases hkept with hkept | ⟨⟨e, hfail⟩, hkept⟩
      · exact congrFun hkept c
      · refine hkept c ?_
        rintro rfl
        exact hlive e ((Function.update_self _ _ _).trans hfail)
    | remove c' outcome hp =>
      have hne : (calls c).topic ≠ (calls c').topic := by
        intro heq
        simp [removes, hp, heq] at hrem
      refine .still hrx hrem rfl rfl rfl ?_
      change Function.update s.topics (calls c').topic none (calls c).topic = some ch ↔ _
      rw [Function.update_of_ne hne]
    | handle cmd rest hidle hq => exact .still hrx hrem rfl rfl rfl Iff.rfl
    | receive topic data service hidle => exact .still hrx hrem rfl rfl rfl Iff.rfl
    | ignore service hidle => exact .still hrx hrem rfl rfl rfl Iff.rfl
    | fanOut topic data hg => exact ⟨hrx, streams_fanOut h hrx hg, (and_iff_left hrem).symm⟩
    | stop i hidle => exact .still hrx hrem (fannedOut_idle _ hidle i) rfl rfl Iff.rfl

theorem run_numbered (svc : NetworkService ν) (calls : κ → Call) (service : ν) (sched : List (Agent κ ν)) :
    Numbered calls (after svc calls service sched) := by
  refine run_inv (I := fun s _ => Numbered calls s) (.init calls service) (fun s tr i h => ?_) sched
  rcases step_cases (Client.turn svc calls) s i with ⟨-, hs, -⟩ | ⟨l, s', ht, hs, -⟩
  · rw [hs]
    exact h
  · rw [hs]
    exact h.step (turn_step ht)

theorem run_phase_done (svc : NetworkService ν) (calls : κ → Call) {r : Except NetworkError Unit}
    (hdone : s.phase c = .done r) (sched : List (Agent κ ν)) :
    (Interleave.run (Client.turn svc calls) s sched).phase c = .done r := by
  refine run_inv (I := fun (s : Client κ ν) _ => s.phase c = .done r) hdone (fun s tr i h => ?_) sched
  rcases step_cases (Client.turn svc calls) s i with ⟨-, hs, -⟩ | ⟨l, s', ht, hs, -⟩
  · rw [hs]
    exact h
  · rw [hs]
    exact phase_done (turn_step ht) h

/-- From a state on, the stream of a call on a channel is its topic's window
if the channel is the topic's, and else gets nothing more. -/
theorem run_streams (h : Numbered calls s) (hrx : s.rx c = some ch) (sched : List (Agent κ ν))
    (hlive : ∀ e, (Interleave.run (Client.turn svc calls) s sched).phase c ≠ .done (.error e)) :
    (Interleave.run (Client.turn svc calls) s sched).streams c = s.streams c ++
      (if s.topics (calls c).topic = some ch then window svc calls (calls c).topic s sched else []) := by
  induction sched generalizing s with
  | nil => simp [Interleave.run, window]
  | cons i sched ih =>
    cases ht : Client.turn svc calls i s with
    | none =>
      have hrem : removes calls (calls c).topic s i ≠ true := by
        intro hrem
        obtain ⟨u, outcome, -, hturn⟩ := removes_turn svc hrem
        rw [hturn] at ht
        cases ht
      have hout : fannedOut (calls c).topic s i = [] := by
        cases i with
        | fanOut =>
          cases hg : s.gossip with
          | none => exact fannedOut_idle _ hg _
          | some m => simp [Client.turn, hg] at ht
        | _ => rfl
      rw [(run_cons_none ht sched).1] at hlive ⊢
      rw [ih h hrx hlive, window, if_neg hrem, hout, step, ht, List.nil_append]
    | some x =>
      obtain ⟨l, s'⟩ := x
      rw [(run_cons_some ht sched).1] at hlive ⊢
      have hs' : ∀ e, s'.phase c ≠ .done (.error e) := fun e he => hlive e (run_phase_done svc calls he sched)
      have hhears := h.hears hrx ht hs'
      rw [ih (h.step (turn_step ht)) hhears.rx hlive, hhears.streams, List.append_assoc]
      congr 1
      by_cases hopen : s.topics (calls c).topic = some ch
      · rw [if_pos hopen, if_pos hopen, window, step, ht]
        cases hrem : removes calls (calls c).topic s i with
        | true =>
          have hclosed : ¬ s'.topics (calls c).topic = some ch := by
            rw [hhears.topics, hrem]
            exact fun h => Bool.noConfusion h.2
          rw [if_neg hclosed, if_pos rfl, List.append_nil]
          cases i with
          | fanOut => cases hrem
          | _ => rfl
        | false =>
          rw [if_pos (hhears.topics.mpr ⟨hopen, hrem⟩)]
          rfl
      · have hclosed : ¬ s'.topics (calls c).topic = some ch := fun h => hopen (hhears.topics.mp h).1
        rw [if_neg hopen, if_neg hopen, if_neg hclosed, List.nil_append]

theorem phase_other {i : Agent κ ν} {l : Label κ} (hs : Step svc calls s i l s') (hi : i ≠ .call c) :
    s'.phase c = s.phase c := by
  have hother : ∀ c' p, Agent.call (ν := ν) c' ≠ .call c → Function.update s.phase c' p c = s.phase c := by
    intro c' p hne
    exact Function.update_of_ne (fun heq : c = c' => hne (by rw [heq])) _ _
  cases hs with
  | register c' hp =>
    obtain ⟨sender, channels, heq, -⟩ := register_cases s c' (calls c').topic
    rw [heq]
    exact hother c' _ hi
  | send c' hp hrun => exact hother c' _ hi
  | settle c' outcome hp hout =>
    obtain ⟨p, rx, heq, -⟩ := settle_cases s c' (calls c') outcome
    rw [heq]
    exact hother c' p hi
  | remove c' outcome hp => exact hother c' _ hi
  | _ => rfl

theorem run_phase_other (svc : NetworkService ν) (calls : κ → Call) (s : Client κ ν) {sched : List (Agent κ ν)}
    (h : .call c ∉ sched) : (Interleave.run (Client.turn svc calls) s sched).phase c = s.phase c := by
  induction sched using List.reverseRecOn with
  | nil => rfl
  | append_singleton sched i ih =>
    rw [List.mem_append, not_or, List.mem_singleton] at h
    rw [run_concat]
    rcases step_cases (Client.turn svc calls) (Interleave.run (Client.turn svc calls) s sched) i with
      ⟨-, hs, -⟩ | ⟨l, s', ht, hs, -⟩
    · rw [hs]
      exact ih h.1
    · rw [hs, phase_other (turn_step ht) (Ne.symm h.2)]
      exact ih h.1

theorem first_turn {svc : NetworkService ν} {calls : κ → Call} {service : ν} {sched : List (Agent κ ν)} {c : κ}
    {topic : String} (hcall : calls c = .subscribe topic)
    (hdone : (after svc calls service sched).phase c = .done (.ok ())) :
    ∃ pre post, sched = pre ++ .call c :: post ∧ .call c ∉ pre := by
  refine List.eq_append_cons_of_mem ?_
  by_contra hnot
  have hstart : (after svc calls service sched).phase c = (calls c).start := run_phase_other svc calls _ hnot
  rw [hstart, hcall] at hdone
  cases hdone

/-- The call's first turn is its registration. -/
theorem window_from_first_turn {svc : NetworkService ν} {calls : κ → Call} {service : ν} {pre post : List (Agent κ ν)}
    {c : κ} {topic : String} (hcall : calls c = .subscribe topic) (hpre : .call c ∉ pre)
    (hdone : (after svc calls service (pre ++ .call c :: post)).phase c = .done (.ok ())) :
    (after svc calls service (pre ++ .call c :: post)).streams c =
      window svc calls topic (after svc calls service (pre ++ [.call c])) post := by
  have hphase : (after svc calls service pre).phase c = .registering := by
    have hstart : (after svc calls service pre).phase c = (calls c).start := run_phase_other svc calls _ hpre
    rw [hstart, hcall]
    rfl
  have hnumbered := run_numbered svc calls service (pre ++ [.call c])
  have hempty := ((run_numbered svc calls service pre).unregistered c hphase).2
  obtain ⟨s, hs⟩ : ∃ s, after svc calls service (pre ++ [.call c]) = s := ⟨_, rfl⟩
  have hreg : (after svc calls service pre).register c topic = s := by
    rw [← hs, after_concat, step, Client.turn, Client.callTurn, hphase, hcall]
    rfl
  have hrun : after svc calls service (pre ++ .call c :: post) = Interleave.run (Client.turn svc calls) s post := by
    rw [List.append_cons, ← hs]
    exact run_append _ _ _ _
  obtain ⟨sender, channels, heq, -⟩ := register_cases (after svc calls service pre) c topic
  rw [hs] at hnumbered ⊢
  have hrx : s.rx c = some sender := by
    rw [← hreg, heq]
    exact Function.update_self _ _ _
  have hopen : s.topics (calls c).topic = some sender := by
    rw [← hreg, heq, hcall]
    exact Function.update_self _ _ _
  have hstream : s.streams c = [] := by
    rw [← hreg, heq]
    exact hempty
  rw [hrun] at hdone ⊢
  rw [run_streams hnumbered hrx post (fun e he => by rw [hdone] at he; cases he), if_pos hopen, hstream, hcall]
  rfl

/-- **What a stream holds**, over every interleaving of any number of calls
with the event loop: a `subscribe` that returned its stream registered at its
first turn, and what was sent to the stream is what was fanned out on the
topic from there to the first removal of the topic's sender. -/
theorem stream_window (svc : NetworkService ν) (calls : κ → Call) (service : ν) (sched : List (Agent κ ν)) (c : κ)
    (topic : String) (hcall : calls c = .subscribe topic)
    (hdone : (after svc calls service sched).phase c = .done (.ok ())) :
    ∃ pre post, sched = pre ++ .call c :: post ∧ .call c ∉ pre ∧
      (after svc calls service sched).streams c =
        window svc calls topic (after svc calls service (pre ++ [.call c])) post := by
  obtain ⟨pre, post, rfl, hpre⟩ := first_turn hcall hdone
  exact ⟨pre, post, rfl, hpre, window_from_first_turn hcall hpre hdone⟩

/-- A topic is subscribed and unsubscribed, with gossip before the removal of
its sender and after. -/
def unsubscribed : List (Agent (Fin 3) Unit) :=
  [.call 0, .call 0, .command, .call 0, .event (some (.gossipMessage "inbox" [7])) (), .fanOut,
    .call 1, .command, .call 1, .event (some (.gossipMessage "inbox" [8])) (), .fanOut,
    .call 1, .event (some (.gossipMessage "inbox" [9])) (), .fanOut]

theorem stream_window_unsubscribed :
    (after obliging resubscribe () unsubscribed).streams 0 = [[7], [8]] ∧
      ∃ pre post, unsubscribed = pre ++ .call 0 :: post ∧ .call 0 ∉ pre ∧
        (after obliging resubscribe () unsubscribed).streams 0 =
          window obliging resubscribe "inbox" (after obliging resubscribe () (pre ++ [.call 0])) post :=
  ⟨by decide +kernel, stream_window obliging resubscribe () unsubscribed 0 "inbox" rfl (by decide +kernel)⟩

/-! ## Reading -/

/-- `TOPIC_CHANNEL_CAPACITY`. -/
def topicChannelCapacity : Nat := 256

/-- The client, and how far each call's stream was read. -/
structure Readers (κ ν : Type) where
  client : Client κ ν
  next : κ → Nat

/-- Who takes a turn: an agent of the client, or whoever polls the stream of a
call. -/
inductive Reader (κ ν : Type)
  | client (i : Agent κ ν)
  | poll (c : κ)

/-- A step: one of the client, or a poll. A stream that gives nothing is
pending, or at its end. -/
inductive Observed (κ : Type)
  | client (l : Label κ)
  | polled (c : κ) (item : Option (Except NetworkError SectorBytes))

/-- The item of `BroadcastStream`, mapped as `subscribe` maps it. -/
def streamItem (item : Broadcast.Item SectorBytes) : Except NetworkError SectorBytes :=
  subscribeItem (item.mapError Lagged.mk)

namespace Readers

def init (calls : κ → Call) (service : ν) : Readers κ ν := ⟨.init calls service, fun _ => 0⟩

/-- The receiver of a call's stream. -/
def receiver (r : Readers κ ν) (c : κ) : Broadcast.Receiver SectorBytes := ⟨r.client.streams c, r.next c⟩

/-- A stream that was read on. -/
def advance (r : Readers κ ν) (c : κ) (next : Nat) : Readers κ ν := { r with next := Function.update r.next c next }

def turn (svc : NetworkService ν) (calls : κ → Call) : Turn (Reader κ ν) (Readers κ ν) (Observed κ)
  | .client i, r => (Client.turn svc calls i r.client).map fun x => (.client x.1, { r with client := x.2 })
  | .poll c, r =>
    match calls c, r.client.phase c with
    | .subscribe _, .done (.ok ()) =>
      let (item, receiver) := (r.receiver c).recv topicChannelCapacity
      some (.polled c (item.map streamItem), r.advance c receiver.next)
    | _, _ => none

end Readers

/-- What was read from a call's stream. -/
def read (c : κ) (tr : List (Reader κ ν × Observed κ)) : List (Except NetworkError SectorBytes) :=
  tr.filterMap fun x =>
    match x.2 with
    | .polled c' item => if c' = c then item else none
    | .client _ => none

/-- The client's part of a schedule. -/
def clientTurns (sched : List (Reader κ ν)) : List (Agent κ ν) :=
  sched.filterMap fun
    | .client i => some i
    | .poll _ => none

theorem read_append (c : κ) (tr tr' : List (Reader κ ν × Observed κ)) : read c (tr ++ tr') = read c tr ++ read c tr' :=
  List.filterMap_append

theorem streams_grow {i : Agent κ ν} {l : Label κ} (hs : Step svc calls s i l s') (c : κ) :
    s'.streams c = s.streams c ∨ ∃ data, s'.streams c = s.streams c ++ [data] := by
  cases hs with
  | register c' hp =>
    obtain ⟨sender, channels, heq, -⟩ := register_cases s c' (calls c').topic
    rw [heq]
    exact .inl rfl
  | settle c' outcome hp hout =>
    obtain ⟨p, rx, heq, -⟩ := settle_cases s c' (calls c') outcome
    rw [heq]
    exact .inl rfl
  | fanOut topic data hg =>
    simp only [Client.fanOut]
    split
    · exact .inr ⟨data, rfl⟩
    · exact .inl rfl
  | _ => exact .inl rfl

/-- What was read from a stream tells of all of it that is behind the reader. -/
def Told (r : Readers κ ν) (tr : List (Reader κ ν × Observed κ)) (c : κ) : Prop :=
  ∃ items, read c tr = items.map streamItem ∧ Broadcast.Faithful (r.receiver c) items

theorem told_client {r : Readers κ ν} {tr : List (Reader κ ν × Observed κ)} {i : Agent κ ν} {l : Label κ}
    (h : Told r tr c) (ht : Client.turn svc calls i r.client = some (l, s')) :
    Told { r with client := s' } (tr ++ [(.client i, .client l)]) c := by
  obtain ⟨items, hread, hfaithful⟩ := h
  refine ⟨items, by rw [read_append, hread]; exact List.append_nil _, ?_⟩
  rcases streams_grow (turn_step ht) c with hsame | ⟨data, hsent⟩
  · have hreceiver : ({ r with client := s' } : Readers κ ν).receiver c = r.receiver c := by
      simp only [Readers.receiver, hsame]
    rw [hreceiver]
    exact hfaithful
  · have hreceiver : ({ r with client := s' } : Readers κ ν).receiver c = (r.receiver c).send data := by
      simp only [Readers.receiver, Broadcast.Receiver.send, hsent]
    rw [hreceiver]
    exact hfaithful.send data

/-- A poll of one stream leaves the others where they were. -/
theorem told_poll {r : Readers κ ν} {tr : List (Reader κ ν × Observed κ)} (h : Told r tr c) (c' : κ) :
    Told (r.advance c' ((r.receiver c').recv topicChannelCapacity).2.next)
      (tr ++ [(.poll c', .polled c' (((r.receiver c').recv topicChannelCapacity).1.map streamItem))]) c := by
  obtain ⟨items, hread, hfaithful⟩ := h
  by_cases hcc : c' = c
  · subst hcc
    refine ⟨items ++ ((r.receiver c').recv topicChannelCapacity).1.toList, ?_, ?_⟩
    · rw [read_append, hread, List.map_append]
      simp only [read, List.filterMap_cons, List.filterMap_nil, if_true]
      cases ((r.receiver c').recv topicChannelCapacity).1 <;> rfl
    · have hreceiver : (r.advance c' ((r.receiver c').recv topicChannelCapacity).2.next).receiver c' =
          ((r.receiver c').recv topicChannelCapacity).2 := by
        simp only [Readers.receiver, Readers.advance, Function.update_self]
        rcases Broadcast.Receiver.recv_cases topicChannelCapacity hfaithful.next_le with
          ⟨_, -, -, heq⟩ | ⟨_, -, heq⟩ | ⟨-, heq⟩ <;> simp only [Readers.receiver] at heq <;> rw [heq]
      rw [hreceiver]
      exact hfaithful.recv topicChannelCapacity
  · refine ⟨items, ?_, ?_⟩
    · rw [read_append, hread]
      simp [read, hcc]
    · simp only [Readers.receiver, Readers.advance, Function.update_of_ne (Ne.symm hcc)]
      exact hfaithful

theorem run_told (svc : NetworkService ν) (calls : κ → Call) (service : ν) (sched : List (Reader κ ν)) (c : κ) :
    Told (Interleave.run (Readers.turn svc calls) (.init calls service) sched)
      (Interleave.trace (Readers.turn svc calls) (.init calls service) sched) c := by
  have hinit : Told (Readers.init calls service) ([] : List (Reader κ ν × Observed κ)) c :=
    ⟨[], rfl, Broadcast.Faithful.fresh⟩
  refine run_inv (I := fun (r : Readers κ ν) tr => Told r tr c) hinit (fun r tr i h => ?_) sched
  rcases step_cases (Readers.turn svc calls) r i with ⟨-, hs, hl⟩ | ⟨l, r', ht, hs, hl⟩
  · rw [hs, hl, List.append_nil]
    exact h
  · rw [hs, hl]
    cases i with
    | client i =>
      simp only [Readers.turn, Option.map_eq_some_iff, Prod.mk.injEq] at ht
      obtain ⟨x, ht, rfl, rfl⟩ := ht
      exact told_client h ht
    | poll c' =>
      simp only [Readers.turn] at ht
      split at ht
      · cases ht
        exact told_poll h c'
      · cases ht

theorem run_client (svc : NetworkService ν) (calls : κ → Call) (r : Readers κ ν) (sched : List (Reader κ ν)) :
    (Interleave.run (Readers.turn svc calls) r sched).client =
      Interleave.run (Client.turn svc calls) r.client (clientTurns sched) := by
  induction sched generalizing r with
  | nil => rfl
  | cons i sched ih =>
    change (Interleave.run (Readers.turn svc calls) (step (Readers.turn svc calls) r i) sched).client = _
    rw [ih]
    cases i with
    | client i =>
      have hstep : (step (Readers.turn svc calls) r (.client i)).client = step (Client.turn svc calls) r.client i := by
        simp only [step, Readers.turn]
        cases Client.turn svc calls i r.client <;> rfl
      rw [hstep]
      rfl
    | poll c =>
      have hstep : (step (Readers.turn svc calls) r (.poll c)).client = r.client := by
        rcases step_cases (Readers.turn svc calls) r (.poll c) with ⟨-, hs, -⟩ | ⟨l, r', ht, hs, -⟩
        · rw [hs]
        · rw [hs]
          simp only [Readers.turn] at ht
          split at ht <;> cases ht
          rfl
      rw [hstep]
      rfl

/-- **Streams account for their topic**, over every interleaving of calls, the
event loop and readers at any pace: what was read from the stream of a
`subscribe` is the gossip of its window in order, each message received or
counted by a lag error; and a poll finds nothing exactly when all of the
window is accounted for. -/
theorem reads_account (svc : NetworkService ν) (calls : κ → Call) (service : ν) (sched : List (Reader κ ν)) (c : κ)
    (topic : String) (hcall : calls c = .subscribe topic)
    (hdone : (Interleave.run (Readers.turn svc calls) (.init calls service) sched).client.phase c = .done (.ok ())) :
    let r := Interleave.run (Readers.turn svc calls) (.init calls service) sched
    ∃ pre post, clientTurns sched = pre ++ .call c :: post ∧ .call c ∉ pre ∧
      let heard := window svc calls topic (after svc calls service (pre ++ [.call c])) post
      (∃ items, read c (Interleave.trace (Readers.turn svc calls) (.init calls service) sched) = items.map streamItem ∧
        Broadcast.Accounts items (heard.take (r.next c))) ∧
      (((r.receiver c).recv topicChannelCapacity).1 = none ↔ r.next c = heard.length) := by
  intro r
  have hclient : r.client = after svc calls service (clientTurns sched) := run_client svc calls _ sched
  have hdone' : (after svc calls service (clientTurns sched)).phase c = .done (.ok ()) := hclient ▸ hdone
  obtain ⟨pre, post, hsched, hpre⟩ := first_turn hcall hdone'
  rw [hsched] at hdone' hclient
  have hstream := window_from_first_turn hcall hpre hdone'
  obtain ⟨items, hread, hfaithful⟩ := run_told svc calls service sched c
  have hsent : (r.receiver c).sent =
      window svc calls topic (after svc calls service (pre ++ [.call c])) post := by
    rw [← hstream, ← hclient]
    rfl
  refine ⟨pre, post, hsched, hpre, ⟨items, hread, ?_⟩, ?_⟩
  · rw [← hsent]
    exact hfaithful.accounts
  · rw [← hsent]
    exact Broadcast.Receiver.recv_eq_none _ hfaithful.next_le

/-- The topic's subscriber reads once before the topic is unsubscribed, and
twice at the end. -/
def unsubscribedRead : List (Reader (Fin 3) Unit) :=
  (unsubscribed.take 6).map .client ++ .poll 0 :: (unsubscribed.drop 6).map .client ++ [.poll 0, .poll 0]

theorem reads_account_unsubscribed :
    let r := Interleave.run (Readers.turn obliging resubscribe) (.init resubscribe ()) unsubscribedRead
    let tr := Interleave.trace (Readers.turn obliging resubscribe) (.init resubscribe ()) unsubscribedRead
    read 0 tr = [.ok [7], .ok [8]] ∧
      ∃ pre post, clientTurns unsubscribedRead = pre ++ .call 0 :: post ∧ .call 0 ∉ pre ∧
        let heard := window obliging resubscribe "inbox" (after obliging resubscribe () (pre ++ [.call 0])) post
        (∃ items, read 0 tr = items.map streamItem ∧ Broadcast.Accounts items (heard.take (r.next 0))) ∧
          (((r.receiver 0).recv topicChannelCapacity).1 = none ↔ r.next 0 = heard.length) :=
  ⟨by decide +kernel, reads_account obliging resubscribe () unsubscribedRead 0 "inbox" rfl (by decide +kernel)⟩

end ZeroSdk.Grid
