/-
`InMemoryGridBroker` and its clients. A `publish` takes the lock once, to note
the message, to clone the topic's sender and to look at the topic's faults;
it sleeps and sends after that, a copy at a time, when the topic may have been
unsubscribed and be on another sender. So a message belongs to the sender its
`publish` has cloned, and a stream to the sender its `subscribe` found.

What a step does to a stream is said once, for all of them (`StreamStep`):
the stream stays on its channel, and each message it gets is one that a
publish in flight owed to the channel.
-/
import Mathlib.Data.List.Perm.Basic
import ZeroSdk.Lib.Broadcast
import ZeroSdk.Network.Subscriptions

namespace ZeroSdk.Mock
open Interleave
open Grid (SectorBytes)

/-! ## The broker -/

inductive Fault
  | drop
  | duplicate
  | delay (duration : Nat)
  deriving DecidableEq

structure BrokerState where
  published : List (String × SectorBytes)
  topics : String → Option Nat
  faults : String → List Fault

/-- A `publish` that has given the lock back: its sender, the copies it has
still to send, and whether it sleeps first. -/
structure Publishing where
  sender : Nat
  sectorBytes : SectorBytes
  copies : Nat
  asleep : Bool
  deriving DecidableEq

/-- The stream of a `subscribe`: a receiver on the channel its topic had. -/
structure BroadcastStream where
  topic : String
  channel : Nat
  rx : Broadcast.Receiver SectorBytes

/-- A message that is sent on a channel. -/
def BroadcastStream.get (sender : Nat) (sectorBytes : SectorBytes) (s : BroadcastStream) : BroadcastStream :=
  if s.channel = sender then { s with rx := s.rx.send sectorBytes } else s

/-- The broker with the number of channels made so far, the publishes in
flight and the streams. -/
structure Broker where
  state : BrokerState
  channels : Nat
  publishing : List Publishing
  streams : List BroadcastStream

/-- What a `publish` makes of the faults of its topic. -/
structure Plan where
  shouldDrop : Bool
  duplicateCount : Nat
  delay : Option Nat
  deriving DecidableEq

def Plan.fault (p : Plan) : Fault → Plan
  | .drop => { p with shouldDrop := true }
  | .duplicate => { p with duplicateCount := p.duplicateCount + 1 }
  | .delay d => { p with delay := some d }

def plan (faults : List Fault) : Plan := faults.foldl Plan.fault ⟨false, 1, none⟩

example : plan [.duplicate, .delay 5, .duplicate, .delay 2] = ⟨false, 3, some 2⟩ := by decide

namespace Broker

/-- `InMemoryGridBroker::new`. -/
def new : Broker := ⟨⟨[], fun _ => none, fun _ => []⟩, 0, [], []⟩

def getOrCreateSender (b : Broker) (topic : String) : Nat × Broker :=
  match b.state.topics topic with
  | some sender => (sender, b)
  | none =>
    (b.channels, { b with
      state := { b.state with topics := Function.update b.state.topics topic (some b.channels) }
      channels := b.channels + 1 })

def note (b : Broker) (topic : String) (sectorBytes : SectorBytes) : Broker :=
  { b with state := { b.state with published := b.state.published ++ [(topic, sectorBytes)] } }

/-- A `publish` up to where it has given the lock back and looked at the
faults it has found. -/
def publish (b : Broker) (topic : String) (sectorBytes : SectorBytes) : Broker :=
  let (sender, b) := (b.note topic sectorBytes).getOrCreateSender topic
  let plan := plan (b.state.faults topic)
  if plan.shouldDrop then b
  else { b with publishing := b.publishing ++ [⟨sender, sectorBytes, plan.duplicateCount, plan.delay.isSome⟩] }

def subscribe (b : Broker) (topic : String) : Broker :=
  let (sender, b) := b.getOrCreateSender topic
  { b with streams := b.streams ++ [⟨topic, sender, .fresh⟩] }

def unsubscribe (b : Broker) (topic : String) : Broker :=
  { b with state := { b.state with topics := Function.update b.state.topics topic none } }

/-- A message on a channel goes to the receivers on it. -/
def send (b : Broker) (sender : Nat) (sectorBytes : SectorBytes) : Broker :=
  { b with streams := b.streams.map (BroadcastStream.get sender sectorBytes) }

/-- A `publish` goes on: it wakes up, sends a copy, or returns. -/
def resume (b : Broker) (i : Nat) (p : Publishing) : Broker :=
  if p.asleep then { b with publishing := b.publishing.set i { p with asleep := false } }
  else
    match p.copies with
    | copies + 1 => { b with publishing := b.publishing.set i { p with copies } }.send p.sender p.sectorBytes
    | 0 => { b with publishing := b.publishing.eraseIdx i }

/-- A sender of the stream's channel is left: in the map, or with a publish in
flight. -/
def Open (b : Broker) (s : BroadcastStream) : Prop :=
  b.state.topics s.topic = some s.channel ∨ ∃ p ∈ b.publishing, p.sender = s.channel

instance (b : Broker) (s : BroadcastStream) : Decidable (b.Open s) := inferInstanceAs (Decidable (_ ∨ _))

end Broker

/-! ## Streams -/

/-- The capacity of a topic's channel. -/
def channelCapacity : Nat := 256

/-- The outcome of `Receiver::try_recv`. -/
inductive TryRecv
  | ok (sectorBytes : SectorBytes)
  | empty
  | lagged (skipped : Nat)
  | closed

def BroadcastStream.tryRecv (b : Broker) (s : BroadcastStream) : TryRecv × BroadcastStream :=
  match s.rx.recv channelCapacity with
  | (some (.ok sectorBytes), rx) => (.ok sectorBytes, { s with rx })
  | (some (.error skipped), rx) => (.lagged skipped, { s with rx })
  | (none, rx) => (if b.Open s then .empty else .closed, { s with rx })

/-- What `poll_next` makes of it; a pending poll gives nothing. -/
def TryRecv.item : TryRecv → Option (Except NetworkError SectorBytes)
  | .ok sectorBytes => some (.ok sectorBytes)
  | .empty | .lagged _ => none
  | .closed => some (.error .subscriptionClosed)

/-! ## Steps -/

/-- An atomic step of a client or of its test: a call's part under the lock, a
publish in flight that goes on or, while it sleeps, is cancelled, or a poll of
a stream. -/
inductive Act
  | publish (topic : String) (sectorBytes : SectorBytes)
  | resume (i : Nat)
  | cancel (i : Nat)
  | subscribe (topic : String)
  | unsubscribe (topic : String)
  | poll (i : Nat)
  | injectFault (topic : String) (fault : Fault)
  | clearFaults
  | drainPublished
  deriving DecidableEq

/-- What a step shows. -/
inductive Shown
  | nothing
  | polled (i : Nat) (item : Option (Except NetworkError SectorBytes))
  | drained (published : List (String × SectorBytes))

def Broker.turn : Turn Act Broker Shown
  | .publish topic sectorBytes, b => some (.nothing, b.publish topic sectorBytes)
  | .resume i, b => b.publishing[i]?.map fun p => (.nothing, b.resume i p)
  | .cancel i, b =>
    match b.publishing[i]? with
    | some p => if p.asleep then some (.nothing, { b with publishing := b.publishing.eraseIdx i }) else none
    | none => none
  | .subscribe topic, b => some (.nothing, b.subscribe topic)
  | .unsubscribe topic, b => some (.nothing, b.unsubscribe topic)
  | .poll i, b => b.streams[i]?.map fun s =>
      (.polled i (s.tryRecv b).1.item, { b with streams := b.streams.set i (s.tryRecv b).2 })
  | .injectFault topic fault, b =>
    some (.nothing, { b with state :=
      { b.state with faults := Function.update b.state.faults topic (b.state.faults topic ++ [fault]) } })
  | .clearFaults, b => some (.nothing, { b with state := { b.state with faults := fun _ => [] } })
  | .drainPublished, b => some (.drained b.state.published, { b with state := { b.state with published := [] } })

/-- The broker after the steps of an interleaving. -/
def after (acts : List Act) : Broker := run Broker.turn .new acts

/-! ## What is to be sent -/

/-- What the faults of a topic make of one message: none with a drop among
them, else one and one more for each duplicate. -/
def copies (faults : List Fault) : Nat := if .drop ∈ faults then 0 else faults.count .duplicate + 1

/-- What a step makes of the faults of a topic. -/
def Act.faults (topic : String) (l : List Fault) : Act → List Fault
  | .injectFault t fault => if t = topic then l ++ [fault] else l
  | .clearFaults => []
  | _ => l

/-- The faults injected on a topic since they were last cleared. -/
def injected (topic : String) (acts : List Act) : List Fault := acts.foldl (Act.faults topic) []

/-- The copies that are to be sent of a message published on a topic, under
the faults that earlier steps have left. -/
def copied (topic : String) (earlier : List Act) : Act → List SectorBytes
  | .publish t sectorBytes => if t = topic then List.replicate (copies (injected topic earlier)) sectorBytes else []
  | _ => []

/-- The copies of the publishes on a topic up to its next `unsubscribe`. -/
def window (topic : String) (earlier : List Act) : List Act → List SectorBytes
  | [] => []
  | a :: acts => if a = .unsubscribe topic then [] else copied topic earlier a ++ window topic (earlier ++ [a]) acts

/-- The copies that publishes in flight have still to send on a channel. -/
def owed (channel : Nat) (l : List Publishing) : List SectorBytes :=
  l.flatMap fun p => if p.sender = channel then List.replicate p.copies p.sectorBytes else []

/-- The copies that a step takes away from a channel. -/
def dropped (channel : Nat) (b : Broker) : Act → List SectorBytes
  | .cancel i =>
    match b.publishing[i]? with
    | some p => if p.asleep then owed channel [p] else []
    | none => []
  | _ => []

/-- The copies on a channel that were cancelled in the course of steps. -/
def cancelled (channel : Nat) (b : Broker) : List Act → List SectorBytes
  | [] => []
  | a :: acts => dropped channel b a ++ cancelled channel (step Broker.turn b a) acts

/-- The copies a step adds on a topic, under the faults the broker has. -/
def added (topic : String) (b : Broker) : Act → List SectorBytes
  | .publish t sectorBytes => if t = topic then List.replicate (copies (b.state.faults topic)) sectorBytes else []
  | _ => []

theorem foldl_fault (p : Plan) (faults : List Fault) :
    (faults.foldl Plan.fault p).shouldDrop = (p.shouldDrop || decide (.drop ∈ faults)) ∧
      (faults.foldl Plan.fault p).duplicateCount = p.duplicateCount + faults.count .duplicate := by
  induction faults generalizing p with
  | nil => simp
  | cons fault faults ih =>
    obtain ⟨hdrop, hcount⟩ := ih (p.fault fault)
    rw [List.foldl_cons, hdrop, hcount]
    cases fault with
    | drop => simp [Plan.fault]
    | duplicate => simp [Plan.fault]; omega
    | delay d => simp [Plan.fault]

/-- A `publish` plans the copies its topic's faults make of the message. -/
theorem copies_eq (faults : List Fault) :
    copies faults = if (plan faults).shouldDrop then 0 else (plan faults).duplicateCount := by
  obtain ⟨hdrop, hcount⟩ := foldl_fault ⟨false, 1, none⟩ faults
  rw [copies, plan, hdrop, hcount, Bool.false_or, Nat.add_comm]
  simp only [decide_eq_true_eq]

/-! ## Channels -/

/-- Channels are numbered as they are made, and each is of one topic. -/
structure Numbered (b : Broker) : Prop where
  topic_lt : ∀ topic channel, b.state.topics topic = some channel → channel < b.channels
  publishing_lt : ∀ p ∈ b.publishing, p.sender < b.channels
  stream_lt : ∀ s ∈ b.streams, s.channel < b.channels
  topic_inj : ∀ topic topic' channel, b.state.topics topic = some channel → b.state.topics topic' = some channel →
    topic = topic'
  stream_topic : ∀ s ∈ b.streams, ∀ topic, b.state.topics topic = some s.channel → topic = s.topic

variable {b b' : Broker} {s : BroadcastStream} {topic : String} {channel i : Nat}

theorem Numbered.new : Numbered .new := by
  refine ⟨fun _ _ h => ?_, fun _ h => ?_, fun _ h => ?_, fun _ _ _ h => ?_, fun _ h => ?_⟩ <;> cases h

/-- The topic's sender is the one in the map, or a new one. -/
theorem getOrCreateSender_cases (b : Broker) (topic : String) :
    (∃ sender, b.state.topics topic = some sender ∧ b.getOrCreateSender topic = (sender, b)) ∨
      b.state.topics topic = none ∧ b.getOrCreateSender topic = (b.channels, { b with
        state := { b.state with topics := Function.update b.state.topics topic (some b.channels) }
        channels := b.channels + 1 }) := by
  unfold Broker.getOrCreateSender
  cases ht : b.state.topics topic with
  | some sender => exact .inl ⟨sender, rfl, rfl⟩
  | none => exact .inr ⟨rfl, rfl⟩

theorem Numbered.create (h : Numbered b) (topic : String) :
    Numbered { b with
      state := { b.state with topics := Function.update b.state.topics topic (some b.channels) }
      channels := b.channels + 1 } := by
  have htopics : ∀ t channel, Function.update b.state.topics topic (some b.channels) t = some channel →
      (t = topic ∧ channel = b.channels) ∨ b.state.topics t = some channel := by
    intro t channel ht
    by_cases heq : t = topic
    · subst heq
      rw [Function.update_self] at ht
      exact .inl ⟨rfl, (Option.some.inj ht).symm⟩
    · rw [Function.update_of_ne heq] at ht
      exact .inr ht
  refine ⟨fun t channel ht => ?_, fun p hp => Nat.lt_succ_of_lt (h.publishing_lt p hp),
    fun s hs => Nat.lt_succ_of_lt (h.stream_lt s hs), fun t t' channel ht ht' => ?_, fun s hs t ht => ?_⟩
  · rcases htopics t channel ht with ⟨-, rfl⟩ | hold
    · exact Nat.lt_succ_self _
    · exact Nat.lt_succ_of_lt (h.topic_lt t channel hold)
  · rcases htopics t channel ht with ⟨rfl, rfl⟩ | hold
    · rcases htopics t' _ ht' with ⟨rfl, -⟩ | hold'
      · rfl
      · exact absurd (h.topic_lt _ _ hold') (lt_irrefl _)
    · rcases htopics t' channel ht' with ⟨rfl, rfl⟩ | hold'
      · exact absurd (h.topic_lt _ _ hold) (lt_irrefl _)
      · exact h.topic_inj t t' channel hold hold'
  · rcases htopics t s.channel ht with ⟨-, heq⟩ | hold
    · have hlt := h.stream_lt s hs
      rw [heq] at hlt
      exact absurd hlt (lt_irrefl _)
    · exact h.stream_topic s hs t hold

/-- What taking the topic's sender does. -/
structure Sender (b : Broker) (topic : String) (sender : Nat) (b' : Broker) : Prop where
  numbered : Numbered b'
  mapped : b'.state.topics topic = some sender
  others : ∀ t, t ≠ topic → b'.state.topics t = b.state.topics t
  kept : ∀ channel, b.state.topics topic = some channel → channel = sender
  unowed : b.state.topics topic = none → ∀ p ∈ b.publishing, p.sender ≠ sender
  fresh : b.state.topics topic = none → ∀ s ∈ b.streams, s.channel ≠ sender
  faults : b'.state.faults = b.state.faults
  publishing : b'.publishing = b.publishing
  streams : b'.streams = b.streams

theorem Numbered.getOrCreateSender (h : Numbered b) (topic : String) :
    Sender b topic (b.getOrCreateSender topic).1 (b.getOrCreateSender topic).2 := by
  rcases getOrCreateSender_cases b topic with ⟨sender, ht, heq⟩ | ⟨ht, heq⟩
  · rw [heq]
    have hnot : b.state.topics topic ≠ none := by
      rw [ht]
      exact Option.some_ne_none sender
    refine ⟨h, ht, fun _ _ => rfl, fun channel hc => ?_, fun hnone => absurd hnone hnot, fun hnone => absurd hnone hnot,
      rfl, rfl, rfl⟩
    exact Option.some.inj (hc.symm.trans ht)
  · rw [heq]
    refine ⟨h.create topic, Function.update_self _ _ _, fun t hne => Function.update_of_ne hne _ _, fun channel hc => ?_,
      fun _ p hp heq => ?_, fun _ s hs heq => ?_, rfl, rfl, rfl⟩
    · rw [ht] at hc
      cases hc
    · have hlt := h.publishing_lt p hp
      rw [heq] at hlt
      exact absurd hlt (lt_irrefl _)
    · have hlt := h.stream_lt s hs
      rw [heq] at hlt
      exact absurd hlt (lt_irrefl _)

theorem Numbered.of_le (h : Numbered b) (hchannels : b'.channels = b.channels)
    (htopics : ∀ topic channel, b'.state.topics topic = some channel → b.state.topics topic = some channel)
    (hpublishing : ∀ p ∈ b'.publishing, ∃ p₀ ∈ b.publishing, p₀.sender = p.sender)
    (hstreams : ∀ s ∈ b'.streams, ∃ s₀ ∈ b.streams, s₀.topic = s.topic ∧ s₀.channel = s.channel) : Numbered b' := by
  refine ⟨fun topic channel ht => ?_, fun p hp => ?_, fun s hs => ?_, fun topic topic' channel ht ht' => ?_,
    fun s hs topic ht => ?_⟩
  · rw [hchannels]
    exact h.topic_lt topic channel (htopics _ _ ht)
  · obtain ⟨p₀, hp₀, heq⟩ := hpublishing p hp
    rw [hchannels, ← heq]
    exact h.publishing_lt p₀ hp₀
  · obtain ⟨s₀, hs₀, -, heq⟩ := hstreams s hs
    rw [hchannels, ← heq]
    exact h.stream_lt s₀ hs₀
  · exact h.topic_inj topic topic' channel (htopics _ _ ht) (htopics _ _ ht')
  · obtain ⟨s₀, hs₀, htopic, hchannel⟩ := hstreams s hs
    rw [← htopic]
    exact h.stream_topic s₀ hs₀ topic (hchannel ▸ htopics _ _ ht)

/-! ## Balance -/

theorem owed_append (channel : Nat) (l l' : List Publishing) : owed channel (l ++ l') = owed channel l ++ owed channel l' :=
  List.flatMap_append

/-- A publish in flight owes its copies, and the others theirs. -/
theorem owed_getElem {l : List Publishing} {p : Publishing} (h : l[i]? = some p) (channel : Nat) :
    (owed channel l).Perm (owed channel [p] ++ owed channel (l.eraseIdx i)) := by
  obtain ⟨hlt, rfl⟩ := List.getElem?_eq_some_iff.mp h
  rw [← owed_append]
  exact (List.getElem_cons_eraseIdx_perm hlt).symm.flatMap_right _

theorem owed_set {l : List Publishing} {p : Publishing} (h : l[i]? = some p) (q : Publishing) (channel : Nat) :
    (owed channel (l.set i q)).Perm (owed channel [q] ++ owed channel (l.eraseIdx i)) := by
  obtain ⟨hlt, -⟩ := List.getElem?_eq_some_iff.mp h
  rw [← owed_append]
  exact (List.set_perm_cons_eraseIdx hlt q).flatMap_right _

/-- What a step does to the stream of an index: it stays where it is, and what
it gets is what somebody owed it. -/
structure StreamStep (b : Broker) (a : Act) (b' : Broker) (i : Nat) (s s' : BroadcastStream) : Prop where
  topic : s'.topic = s.topic
  channel : s'.channel = s.channel
  mapped : b'.state.topics s.topic = some s.channel ↔ b.state.topics s.topic = some s.channel ∧ a ≠ .unsubscribe s.topic
  balance : (s'.rx.sent ++ owed s.channel b'.publishing ++ dropped s.channel b a).Perm
    (s.rx.sent ++ owed s.channel b.publishing ++
      (if b.state.topics s.topic = some s.channel then added s.topic b a else []))
  /-- It gets messages one at a time, while its channel has a sender. -/
  sent : s'.rx.sent = s.rx.sent ∨ b.Open s ∧ ∃ sectorBytes, s'.rx.sent = s.rx.sent ++ [sectorBytes]
  next : a ≠ .poll i → s'.rx.next = s.rx.next
  opened : (∃ p ∈ b'.publishing, p.sender = s.channel) → b.Open s

/-- What a step does to the channel a topic has after it: nobody owes more on
it than what the step adds on the topic, and what was owed on it before. -/
structure ChannelStep (b : Broker) (a : Act) (b' : Broker) (topic : String) (channel : Nat) : Prop where
  kept : a ≠ .unsubscribe topic
  /-- It was the topic's before, or is a new one. -/
  mapped : b.state.topics topic = some channel ∨ owed channel b.publishing = []
  owed : (owed channel b'.publishing).Subperm (owed channel b.publishing ++ added topic b a)

/-- What a step does to the broker. -/
structure BrokerStep (b : Broker) (a : Act) (b' : Broker) : Prop where
  numbered : Numbered b'
  channels : ∀ topic channel, b'.state.topics topic = some channel → ChannelStep b a b' topic channel
  streams : ∀ (i : Nat) (s : BroadcastStream), b.streams[i]? = some s →
    ∃ s', b'.streams[i]? = some s' ∧ StreamStep b a b' i s s'

theorem owed_eq_nil {l : List Publishing} (h : ∀ p ∈ l, p.sender ≠ channel) : owed channel l = [] :=
  List.flatMap_eq_nil_iff.mpr fun p hp => if_neg (h p hp)

/-- A topic's channel is the one it had, or nobody owes on it; and it is the
sender taken just if the topic is the one it was taken for. -/
theorem Sender.channel_cases {sender : Nat} (h : Sender b topic sender b') {t : String}
    (ht : b'.state.topics t = some channel) :
    (b.state.topics t = some channel ∨ owed channel b.publishing = []) ∧ (sender = channel ↔ topic = t) := by
  by_cases heq : t = topic
  · subst heq
    obtain rfl : sender = channel := Option.some.inj (h.mapped.symm.trans ht)
    refine ⟨?_, iff_of_true rfl rfl⟩
    cases hold : b.state.topics t with
    | none => exact .inr (owed_eq_nil (h.unowed hold))
    | some channel => exact .inl (by rw [h.kept channel hold])
  · refine ⟨.inl (h.others t heq ▸ ht), iff_of_false (fun hsender => ?_) (Ne.symm heq)⟩
    subst hsender
    exact heq (h.numbered.topic_inj _ _ _ ht h.mapped)

section Sender
variable {sender : Nat} (h : Sender b topic sender b') (hs : s ∈ b.streams)
include h hs

/-- The topic's sender is that of a stream just if the stream is one of the
topic and the topic still has the stream's channel. -/
theorem Sender.sender_eq : sender = s.channel ↔ topic = s.topic ∧ b.state.topics s.topic = some s.channel := by
  refine ⟨fun heq => ?_, fun hmapped => ?_⟩
  · have htopic : topic = s.topic := h.numbered.stream_topic s (h.streams ▸ hs) topic (heq ▸ h.mapped)
    refine ⟨htopic, ?_⟩
    rw [← htopic]
    cases hold : b.state.topics topic with
    | none => exact absurd heq.symm (h.fresh hold s hs)
    | some channel => rw [h.kept channel hold, heq]
  · exact (h.kept s.channel (hmapped.1 ▸ hmapped.2)).symm

theorem Sender.mapped_iff : b'.state.topics s.topic = some s.channel ↔ b.state.topics s.topic = some s.channel := by
  by_cases htopic : topic = s.topic
  · have hmapped := h.mapped
    rw [htopic] at hmapped
    rw [hmapped, Option.some_inj, h.sender_eq hs]
    exact and_iff_right htopic
  · rw [h.others s.topic (Ne.symm htopic)]

end Sender

theorem Numbered.note (h : Numbered b) (topic : String) (sectorBytes : SectorBytes) : Numbered (b.note topic sectorBytes) :=
  ⟨h.topic_lt, h.publishing_lt, h.stream_lt, h.topic_inj, h.stream_topic⟩

theorem added_publish (b : Broker) (topic topic' : String) (sectorBytes : SectorBytes) :
    added topic' b (.publish topic sectorBytes) =
      if topic = topic' then List.replicate (copies (b.state.faults topic)) sectorBytes else [] := by
  by_cases htopic : topic = topic'
  · rw [htopic]
    rfl
  · rw [if_neg htopic]
    exact if_neg htopic

/-- The copies of a `publish` are owed to the streams of its topic that are on
the topic's sender. -/
theorem owed_publish {sender : Nat} (hsender : sender = s.channel ↔ topic = s.topic ∧ b.state.topics s.topic = some s.channel)
    (sectorBytes : SectorBytes) (asleep : Bool) :
    owed s.channel [⟨sender, sectorBytes, copies (b.state.faults topic), asleep⟩] =
      if b.state.topics s.topic = some s.channel then added s.topic b (.publish topic sectorBytes) else [] := by
  rw [owed, List.flatMap_singleton, added_publish]
  by_cases heq : sender = s.channel
  · obtain ⟨htopic, hmapped⟩ := hsender.mp heq
    rw [if_pos heq, if_pos hmapped, if_pos htopic]
  · rw [if_neg heq]
    by_cases hmapped : b.state.topics s.topic = some s.channel
    · rw [if_pos hmapped, if_neg fun htopic => heq (hsender.mpr ⟨htopic, hmapped⟩)]
    · rw [if_neg hmapped]

theorem publish_cases {sender : Nat} {sectorBytes : SectorBytes}
    (h : (b.note topic sectorBytes).getOrCreateSender topic = (sender, b')) :
    (copies (b'.state.faults topic) = 0 ∧ b.publish topic sectorBytes = b') ∨
      ∃ asleep, b.publish topic sectorBytes =
        { b' with publishing := b'.publishing ++ [⟨sender, sectorBytes, copies (b'.state.faults topic), asleep⟩] } := by
  rw [copies_eq, Broker.publish, h]
  by_cases hdrop : (plan (b'.state.faults topic)).shouldDrop
  · exact .inl ⟨if_pos hdrop, if_pos hdrop⟩
  · refine .inr ⟨(plan (b'.state.faults topic)).delay.isSome, ?_⟩
    rw [if_neg hdrop]
    exact if_neg hdrop

theorem publish_step (h : Numbered b) (topic : String) (sectorBytes : SectorBytes) :
    BrokerStep b (.publish topic sectorBytes) (b.publish topic sectorBytes) := by
  have hsender := (h.note topic sectorBytes).getOrCreateSender topic
  obtain ⟨sender, b', heq⟩ : ∃ sender b', (b.note topic sectorBytes).getOrCreateSender topic = (sender, b') := ⟨_, _, rfl⟩
  rw [heq] at hsender
  have hfaults : b'.state.faults = b.state.faults := hsender.faults
  have hpublishing : b'.publishing = b.publishing := hsender.publishing
  have hstreams : b'.streams = b.streams := hsender.streams
  have hmapped : ∀ s ∈ b.streams, b'.state.topics s.topic = some s.channel ↔
      b.state.topics s.topic = some s.channel ∧ Act.publish topic sectorBytes ≠ .unsubscribe s.topic := fun s hs =>
    (hsender.mapped_iff hs).trans (and_iff_left Act.noConfusion).symm
  have howed : ∀ s ∈ b.streams, ∀ asleep, owed s.channel [⟨sender, sectorBytes, copies (b.state.faults topic), asleep⟩] =
      if b.state.topics s.topic = some s.channel then added s.topic b (.publish topic sectorBytes) else [] := fun s hs =>
    owed_publish (hsender.sender_eq hs) sectorBytes
  rcases publish_cases heq with ⟨hnone, hpublish⟩ | ⟨asleep, hpublish⟩ <;> rw [hpublish]
  · refine ⟨hsender.numbered, fun t channel ht => ⟨Act.noConfusion, (hsender.channel_cases ht).1, ?_⟩, fun i s hs =>
      ⟨s, hstreams ▸ hs, rfl, rfl, hmapped s (List.mem_of_getElem? hs), ?_, .inl rfl, fun _ => rfl, fun hp => ?_⟩⟩
    · rw [hpublishing]
      exact (List.sublist_append_left _ _).subperm
    · rw [hfaults] at hnone
      rw [← howed s (List.mem_of_getElem? hs) false, hpublishing, hnone]
      simp [dropped, owed]
    · exact .inr (hpublishing ▸ hp)
  · refine ⟨?_, fun t channel ht => ⟨Act.noConfusion, (hsender.channel_cases ht).1, ?_⟩, fun i s hs =>
      ⟨s, hstreams ▸ hs, rfl, rfl, hmapped s (List.mem_of_getElem? hs), ?_, .inl rfl, fun _ => rfl, fun hp => ?_⟩⟩
    · refine ⟨hsender.numbered.topic_lt, fun p hp => ?_, hsender.numbered.stream_lt, hsender.numbered.topic_inj,
        hsender.numbered.stream_topic⟩
      rcases List.mem_append.mp hp with hp | hp
      · exact hsender.numbered.publishing_lt p hp
      · rw [List.mem_singleton.mp hp]
        exact hsender.numbered.topic_lt topic sender hsender.mapped
    · rw [hpublishing, hfaults, owed_append, added_publish]
      simp only [owed, List.flatMap_singleton, (hsender.channel_cases ht).2]
      exact List.Subperm.refl _
    · rw [← howed s (List.mem_of_getElem? hs) asleep, hpublishing, hfaults, owed_append]
      simp [dropped]
    · obtain ⟨p, hp, heq⟩ := hp
      rcases List.mem_append.mp hp with hp | hp
      · exact .inr ⟨p, hpublishing ▸ hp, heq⟩
      · rw [List.mem_singleton.mp hp] at heq
        exact .inl ((hsender.sender_eq (List.mem_of_getElem? hs)).mp heq).2

theorem subscribe_step (h : Numbered b) (topic : String) : BrokerStep b (.subscribe topic) (b.subscribe topic) := by
  have hsender := h.getOrCreateSender topic
  obtain ⟨sender, b', heq⟩ : ∃ sender b', b.getOrCreateSender topic = (sender, b') := ⟨_, _, rfl⟩
  rw [heq] at hsender
  have hpublishing : b'.publishing = b.publishing := hsender.publishing
  have hstreams : b'.streams = b.streams := hsender.streams
  have hsubscribe : b.subscribe topic = { b' with streams := b'.streams ++ [⟨topic, sender, .fresh⟩] } := by
    unfold Broker.subscribe
    rw [heq]
  rw [hsubscribe]
  refine ⟨?_, fun t channel ht => ⟨Act.noConfusion, (hsender.channel_cases ht).1, ?_⟩,
    fun i s hs => ⟨s, ?_, rfl, rfl, ?_, ?_, .inl rfl, fun _ => rfl, fun hp => .inr (hpublishing ▸ hp)⟩⟩
  · refine ⟨hsender.numbered.topic_lt, hsender.numbered.publishing_lt, fun s hs => ?_, hsender.numbered.topic_inj,
      fun s hs t ht => ?_⟩
    · rcases List.mem_append.mp hs with hs | hs
      · exact hsender.numbered.stream_lt s hs
      · rw [List.mem_singleton.mp hs]
        exact hsender.numbered.topic_lt topic sender hsender.mapped
    · rcases List.mem_append.mp hs with hs | hs
      · exact hsender.numbered.stream_topic s hs t ht
      · rw [List.mem_singleton.mp hs] at ht ⊢
        exact hsender.numbered.topic_inj t topic sender ht hsender.mapped
  · rw [hpublishing]
    exact (List.sublist_append_left _ _).subperm
  · change (b'.streams ++ _)[i]? = some s
    rw [hstreams]
    exact List.getElem?_append_left (List.getElem?_eq_some_iff.mp hs).1 ▸ hs
  · exact (hsender.mapped_iff (List.mem_of_getElem? hs)).trans (and_iff_left Act.noConfusion).symm
  · rw [hpublishing]
    simp [dropped, added]

/-- Steps that do not concern the topics. -/
def Act.Neutral (a : Act) : Prop := (∀ topic, a ≠ .unsubscribe topic) ∧ ∀ topic b, added topic b a = []

/-- A neutral step that sends nothing: what is owed stays, or is dropped. -/
theorem BrokerStep.of_neutral (h : Numbered b) {a : Act} (ha : a.Neutral) (hchannels : b'.channels = b.channels)
    (htopics : b'.state.topics = b.state.topics) (hpublishing : ∀ p ∈ b'.publishing, ∃ p₀ ∈ b.publishing, p₀.sender = p.sender)
    (howed : ∀ channel, (owed channel b'.publishing ++ dropped channel b a).Perm (owed channel b.publishing))
    (hstreams : ∀ (i : Nat) (s : BroadcastStream), b.streams[i]? = some s →
      ∃ s', b'.streams[i]? = some s' ∧ s'.topic = s.topic ∧ s'.channel = s.channel ∧ s'.rx.sent = s.rx.sent ∧
        (a ≠ .poll i → s'.rx.next = s.rx.next))
    (hlength : b'.streams.length = b.streams.length) : BrokerStep b a b' := by
  refine ⟨h.of_le hchannels (fun _ _ ht => htopics ▸ ht) hpublishing fun s' hs' => ?_,
    fun topic channel ht => ⟨ha.1 topic, .inl (htopics ▸ ht), ?_⟩, fun i s hs => ?_⟩
  · obtain ⟨i, hi⟩ := List.mem_iff_getElem?.mp hs'
    have hlt : i < b.streams.length := hlength ▸ (List.getElem?_eq_some_iff.mp hi).1
    obtain ⟨s'', hs'', htopic, hchannel, -⟩ := hstreams i _ (List.getElem?_eq_getElem hlt)
    rw [hi] at hs''
    cases hs''
    exact ⟨_, List.getElem_mem hlt, htopic.symm, hchannel.symm⟩
  · have hless := (List.sublist_append_left (owed channel b'.publishing) (dropped channel b a)).subperm
    exact (hless.trans (howed channel).subperm).trans (List.sublist_append_left _ _).subperm
  · obtain ⟨s', hs', htopic, hchannel, hsent, hnext⟩ := hstreams i s hs
    refine ⟨s', hs', htopic, hchannel, ?_, ?_, .inl hsent, hnext, fun hp => ?_⟩
    · rw [htopics]
      exact (and_iff_left (ha.1 _)).symm
    · rw [hsent, ha.2, ite_self, List.append_nil, List.append_assoc]
      exact (howed s.channel).append_left _
    · obtain ⟨p, hp, heq⟩ := hp
      obtain ⟨p₀, hp₀, hold⟩ := hpublishing p hp
      exact .inr ⟨p₀, hp₀, hold.trans heq⟩

theorem mem_set_sender {l : List Publishing} {p q : Publishing} (h : l[i]? = some p) (hq : q.sender = p.sender) :
    ∀ x ∈ l.set i q, ∃ x₀ ∈ l, x₀.sender = x.sender := by
  intro x hx
  rcases List.mem_or_eq_of_mem_set hx with hx | rfl
  · exact ⟨x, hx, rfl⟩
  · exact ⟨p, List.mem_of_getElem? h, hq.symm⟩

theorem dropped_resume (channel : Nat) (b : Broker) (i : Nat) : dropped channel b (.resume i) = [] := rfl

theorem neutral_resume (i : Nat) : (Act.resume i).Neutral := ⟨fun _ => Act.noConfusion, fun _ _ => rfl⟩

theorem get_eq (sender : Nat) (sectorBytes : SectorBytes) (s : BroadcastStream) :
    (s.get sender sectorBytes).topic = s.topic ∧ (s.get sender sectorBytes).channel = s.channel ∧
      (s.get sender sectorBytes).rx.next = s.rx.next ∧
      (s.get sender sectorBytes).rx.sent = s.rx.sent ++ if s.channel = sender then [sectorBytes] else [] := by
  unfold BroadcastStream.get
  split
  · exact ⟨rfl, rfl, rfl, rfl⟩
  · exact ⟨rfl, rfl, rfl, (List.append_nil _).symm⟩

theorem owed_copy {p : Publishing} {n : Nat} (hn : p.copies = n + 1) (channel : Nat) :
    owed channel [p] = (if channel = p.sender then [p.sectorBytes] else []) ++ owed channel [{ p with copies := n }] := by
  unfold owed
  rw [List.flatMap_singleton, List.flatMap_singleton, hn]
  by_cases heq : p.sender = channel
  · rw [if_pos heq, if_pos heq.symm, if_pos heq]
    rfl
  · rw [if_neg heq, if_neg (Ne.symm heq), if_neg heq]
    rfl

/-- A copy goes from what a publish in flight owes to the streams of its
sender. -/
theorem send_step (h : Numbered b) {p : Publishing} (hp : b.publishing[i]? = some p) {n : Nat} (hn : p.copies = n + 1) :
    BrokerStep b (.resume i)
      ({ b with publishing := b.publishing.set i { p with copies := n } }.send p.sender p.sectorBytes) := by
  refine ⟨h.of_le rfl (fun _ _ ht => ht) (mem_set_sender hp rfl) fun s hs => ?_,
    fun topic channel ht => ⟨Act.noConfusion, .inl ht, ?_⟩, fun j s hs => ?_⟩
  · obtain ⟨s₀, hs₀, rfl⟩ := List.mem_map.mp hs
    obtain ⟨htopic, hchannel, -⟩ := get_eq p.sender p.sectorBytes s₀
    exact ⟨s₀, hs₀, htopic.symm, hchannel.symm⟩
  · have hold := owed_getElem hp channel
    rw [owed_copy hn, List.append_assoc] at hold
    have hless := (List.sublist_append_right (if channel = p.sender then [p.sectorBytes] else []) _).subperm.trans hold.symm.subperm
    exact ((owed_set hp { p with copies := n } channel).subperm.trans hless).trans (List.sublist_append_left _ _).subperm
  · obtain ⟨htopic, hchannel, hnext, hsent⟩ := get_eq p.sender p.sectorBytes s
    have hget : (b.streams.map (BroadcastStream.get p.sender p.sectorBytes))[j]? = some (s.get p.sender p.sectorBytes) := by
      rw [List.getElem?_map, hs]
      rfl
    refine ⟨_, hget, htopic, hchannel, (and_iff_left Act.noConfusion).symm, ?_, ?_, fun _ => hnext, fun hq => ?_⟩
    · have hold := owed_getElem hp s.channel
      rw [owed_copy hn, List.append_assoc] at hold
      rw [hsent, (neutral_resume i).2, ite_self, List.append_nil, dropped_resume, List.append_nil, List.append_assoc]
      exact (((owed_set hp { p with copies := n } s.channel).append_left _).trans hold.symm).append_left _
    · rw [hsent]
      split
      · next heq => exact .inr ⟨.inr ⟨p, List.mem_of_getElem? hp, heq.symm⟩, _, rfl⟩
      · exact .inl (List.append_nil _)
    · obtain ⟨q, hq, heq⟩ := hq
      obtain ⟨q₀, hq₀, hold⟩ := mem_set_sender (q := { p with copies := n }) hp rfl q hq
      exact .inr ⟨q₀, hq₀, hold.trans heq⟩

theorem resume_step (h : Numbered b) {p : Publishing} (hp : b.publishing[i]? = some p) :
    BrokerStep b (.resume i) (b.resume i p) := by
  unfold Broker.resume
  split
  · refine .of_neutral h (neutral_resume i) rfl rfl (mem_set_sender hp rfl) (fun channel => ?_)
      (fun j s hs => ⟨s, hs, rfl, rfl, rfl, fun _ => rfl⟩) rfl
    have hset := owed_set hp { p with asleep := false } channel
    rw [dropped_resume, List.append_nil]
    exact hset.trans (owed_getElem hp channel).symm
  · split
    · next n hn => exact send_step h hp hn
    · next hn =>
      refine .of_neutral h (neutral_resume i) rfl rfl (fun p hp => ⟨p, List.mem_of_mem_eraseIdx hp, rfl⟩) (fun channel => ?_)
        (fun j s hs => ⟨s, hs, rfl, rfl, rfl, fun _ => rfl⟩) rfl
      -- it has sent all its copies
      have hnone : owed channel [p] = [] := by
        unfold owed
        rw [List.flatMap_singleton, hn]
        exact ite_self _
      have hold := owed_getElem hp channel
      rw [hnone] at hold
      rw [dropped_resume, List.append_nil]
      exact hold.symm

theorem cancel_step (h : Numbered b) {p : Publishing} (hp : b.publishing[i]? = some p) (hasleep : p.asleep) :
    BrokerStep b (.cancel i) { b with publishing := b.publishing.eraseIdx i } := by
  refine .of_neutral h ⟨fun _ => Act.noConfusion, fun _ _ => rfl⟩ rfl rfl
    (fun p hp => ⟨p, List.mem_of_mem_eraseIdx hp, rfl⟩) (fun channel => ?_) (fun j s hs => ⟨s, hs, rfl, rfl, rfl, fun _ => rfl⟩) rfl
  have hdropped : dropped channel b (.cancel i) = owed channel [p] := by
    simp only [dropped, hp, hasleep, if_true]
  rw [hdropped]
  exact List.perm_append_comm.trans (owed_getElem hp channel).symm

theorem unsubscribe_step (h : Numbered b) (topic : String) : BrokerStep b (.unsubscribe topic) (b.unsubscribe topic) := by
  have htopics : ∀ t channel, (b.unsubscribe topic).state.topics t = some channel ↔
      b.state.topics t = some channel ∧ topic ≠ t := by
    intro t channel
    change Function.update b.state.topics topic none t = some channel ↔ _
    by_cases heq : t = topic
    · subst heq
      simp
    · rw [Function.update_of_ne heq]
      exact (and_iff_left (Ne.symm heq)).symm
  refine ⟨h.of_le rfl (fun t channel ht => ((htopics t channel).mp ht).1) (fun p hp => ⟨p, hp, rfl⟩)
    (fun s hs => ⟨s, hs, rfl, rfl⟩), fun t channel ht => ⟨fun ha => ?_, .inl ((htopics t channel).mp ht).1, ?_⟩,
    fun i s hs => ⟨s, hs, rfl, rfl, ?_, ?_, .inl rfl, fun _ => rfl, .inr⟩⟩
  · exact ((htopics t channel).mp ht).2 (Act.unsubscribe.inj ha)
  · exact (List.sublist_append_left _ _).subperm
  · rw [htopics]
    refine and_congr_right fun _ => not_congr ⟨congrArg _, fun heq => ?_⟩
    exact Act.unsubscribe.inj heq
  · simp [dropped, added, Broker.unsubscribe]

theorem tryRecv_stream (b : Broker) (s : BroadcastStream) :
    (s.tryRecv b).2 = { s with rx := (s.rx.recv channelCapacity).2 } := by
  unfold BroadcastStream.tryRecv
  split <;> next heq => rw [heq]

theorem poll_step (h : Numbered b) (hs : b.streams[i]? = some s) :
    BrokerStep b (.poll i) { b with streams := b.streams.set i (s.tryRecv b).2 } := by
  have hlt := (List.getElem?_eq_some_iff.mp hs).1
  refine .of_neutral h ⟨fun _ => Act.noConfusion, fun _ _ => rfl⟩ rfl rfl (fun p hp => ⟨p, hp, rfl⟩)
    (fun channel => ?_) (fun j s' hs' => ?_) (List.length_set ..)
  · exact List.Perm.of_eq (List.append_nil _)
  · by_cases hj : i = j
    · subst hj
      rw [hs] at hs'
      cases hs'
      refine ⟨_, List.getElem?_set_self hlt, ?_⟩
      rw [tryRecv_stream]
      exact ⟨rfl, rfl, Broadcast.Receiver.recv_sent _ _, fun hne => absurd rfl hne⟩
    · exact ⟨s', (List.getElem?_set_ne hj).trans hs', rfl, rfl, rfl, fun _ => rfl⟩

theorem test_step (h : Numbered b) {a : Act} (ha : a.Neutral) (hdropped : ∀ channel, dropped channel b a = [])
    {state : BrokerState} (htopics : state.topics = b.state.topics) : BrokerStep b a { b with state } := by
  refine .of_neutral h ha rfl htopics (fun p hp => ⟨p, hp, rfl⟩) (fun channel => ?_)
    (fun j s hs => ⟨s, hs, rfl, rfl, rfl, fun _ => rfl⟩) rfl
  rw [hdropped, List.append_nil]

theorem turn_step (h : Numbered b) {a : Act} {l : Shown} (ht : Broker.turn a b = some (l, b')) : BrokerStep b a b' := by
  cases a with
  | publish topic sectorBytes =>
    cases ht
    exact publish_step h topic sectorBytes
  | resume i =>
    simp only [Broker.turn, Option.map_eq_some_iff, Prod.mk.injEq] at ht
    obtain ⟨p, hp, -, rfl⟩ := ht
    exact resume_step h hp
  | cancel i =>
    simp only [Broker.turn] at ht
    split at ht
    · next p hp =>
      split at ht
      · next hasleep =>
        cases ht
        exact cancel_step h hp hasleep
      · cases ht
    · cases ht
  | subscribe topic =>
    cases ht
    exact subscribe_step h topic
  | unsubscribe topic =>
    cases ht
    exact unsubscribe_step h topic
  | poll i =>
    simp only [Broker.turn, Option.map_eq_some_iff, Prod.mk.injEq] at ht
    obtain ⟨s, hs, -, rfl⟩ := ht
    exact poll_step h hs
  | injectFault topic fault =>
    cases ht
    exact test_step h ⟨fun _ => Act.noConfusion, fun _ _ => rfl⟩ (fun _ => rfl) rfl
  | clearFaults =>
    cases ht
    exact test_step h ⟨fun _ => Act.noConfusion, fun _ _ => rfl⟩ (fun _ => rfl) rfl
  | drainPublished =>
    cases ht
    exact test_step h ⟨fun _ => Act.noConfusion, fun _ _ => rfl⟩ (fun _ => rfl) rfl

theorem blocked_step (h : Numbered b) {a : Act} (ht : Broker.turn a b = none) : BrokerStep b a b := by
  cases a with
  | resume i => exact test_step h (neutral_resume i) (fun _ => rfl) rfl
  | cancel i =>
    refine test_step h ⟨fun _ => Act.noConfusion, fun _ _ => rfl⟩ (fun channel => ?_) rfl
    unfold dropped
    simp only [Broker.turn] at ht
    split at ht
    · next p hp =>
      split at ht
      · cases ht
      · next hasleep => simp only [hp, hasleep, Bool.false_eq_true, if_false]
    · next hp => simp only [hp]
  | poll i => exact test_step h ⟨fun _ => Act.noConfusion, fun _ _ => rfl⟩ (fun _ => rfl) rfl
  | _ => cases ht

theorem step_step (h : Numbered b) (a : Act) : BrokerStep b a (step Broker.turn b a) := by
  rcases step_cases Broker.turn b a with ⟨ht, hs, -⟩ | ⟨l, b', ht, hs, -⟩ <;> rw [hs]
  · exact blocked_step h ht
  · exact turn_step h ht

end ZeroSdk.Mock
