/-
`RealGridClient`: calls that subscribe, unsubscribe and publish while an event
loop handles their commands and fans gossip out to their streams.

Two tables say who is subscribed. The topic map, behind a lock, has the
broadcast sender of each topic; the network service, owned by the event loop,
has the upstream subscriptions. `subscribe` registers on the sender first and
sends its command second, `unsubscribe` sends its command first and removes
the sender second, and between the two steps of either anything may happen.
An `unsubscribe` whose command is handled before a `subscribe` and that
removes the sender after it leaves the topic subscribed with nobody to fan
out to (`resubscription_lost`).

`subscription_delivers` is what holds: over every run in which no removal
takes a sender that a `subscribe` is relying on, gossip on a topic reaches
the stream of the call whose command subscribed it last.
-/
import ZeroSdk.Lib.Bytes
import ZeroSdk.Lib.Interleave
import ZeroSdk.Network.Client

namespace ZeroSdk.Grid
open Interleave

/-! ## Calls and commands -/

abbrev SectorBytes := Bytes

/-- `COMMAND_CHANNEL_CAPACITY`. -/
def commandChannelCapacity : Nat := 64

/-- A call on the client. -/
inductive Call
  | subscribe (topic : String)
  | unsubscribe (topic : String)
  | publish (topic : String) (sectorBytes : SectorBytes)
  deriving DecidableEq

def Call.topic : Call → String
  | .subscribe topic | .unsubscribe topic | .publish topic _ => topic

/-- `Command`: what a call asks of the event loop. The reply goes to the call. -/
inductive Command (κ : Type)
  | subscribe (topic : String) (reply : κ)
  | unsubscribe (topic : String) (reply : κ)
  | publish (topic : String) (data : SectorBytes) (reply : κ)
  deriving DecidableEq

def Command.reply {κ : Type} : Command κ → κ
  | .subscribe _ reply | .unsubscribe _ reply | .publish _ _ reply => reply

/-- The topic whose subscription a command changes. -/
def Command.subscription {κ : Type} : Command κ → Option String
  | .subscribe topic _ | .unsubscribe topic _ => some topic
  | .publish _ _ _ => none

def Call.command {κ : Type} (c : κ) : Call → Command κ
  | .subscribe topic => .subscribe topic c
  | .unsubscribe topic => .unsubscribe topic c
  | .publish topic sectorBytes => .publish topic sectorBytes c

/-- `grid_net::NetworkService` with states in `ν`, an error by its text. -/
structure NetworkService (ν : Type) where
  subscribe : ν → (topic : String) → Except String Unit × ν
  unsubscribe : ν → (topic : String) → Except String Unit × ν
  publish : ν → (topic : String) → (data : SectorBytes) → Except String Unit × ν

/-- `grid_net::NetworkEvent`; the event loop looks at gossip only. -/
inductive NetworkEvent
  | gossipMessage (topic : String) (data : SectorBytes)
  | other
  deriving DecidableEq

/-- Where a call is: before its registration (`subscribe`), before and after
its command was sent, before the removal (`unsubscribe`), at its end. -/
inductive Phase
  | registering
  | sending
  | waiting
  | removing (outcome : Except NetworkError Unit)
  | done (result : Except NetworkError Unit)
  deriving DecidableEq

/-- The first step of a call. -/
def Call.start : Call → Phase
  | .subscribe _ => .registering
  | .unsubscribe _ | .publish _ _ => .sending

/-! ## The client -/

/-- The client and its event loop. A broadcast channel is named by a number;
`rx` is the channel a call's receiver is on and `streams` what was sent to it. -/
structure Client (κ ν : Type) where
  topics : String → Option Nat
  channels : Nat
  rx : κ → Option Nat
  streams : κ → List SectorBytes
  commands : List (Command κ)
  replies : κ → Option (Except NetworkError Unit)
  phase : κ → Phase
  service : ν
  /-- The event loop has not ended. -/
  running : Bool
  /-- The gossip the event loop waits for the lock with. -/
  gossip : Option (String × SectorBytes)

/-- Who takes a turn: a call, or the event loop on a command, on an event
(after which the service is as given; `none` ends the stream of events), on
the gossip it holds, or on the signal to shut down. -/
inductive Agent (κ ν : Type)
  | call (c : κ)
  | command
  | event (event : Option NetworkEvent) (service : ν)
  | fanOut
  | shutdown
  deriving DecidableEq

/-- A step: the event loop handled a command, or another. -/
inductive Label (κ : Type)
  | handled (cmd : Command κ) (result : Except NetworkError Unit)
  | internal
  deriving DecidableEq

/-- `handle_command`: the result that is replied, and the service. -/
def handleCommand {κ ν : Type} (svc : NetworkService ν) (service : ν) : Command κ → Except NetworkError Unit × ν
  | .subscribe topic _ =>
    let (res, service) := svc.subscribe service topic
    (res.mapError fun e => .other ("subscribe failed: " ++ e), service)
  | .unsubscribe topic _ =>
    let (res, service) := svc.unsubscribe service topic
    (res.mapError fun e => .other ("unsubscribe failed: " ++ e), service)
  | .publish topic data _ =>
    let (res, service) := svc.publish service topic data
    (res.mapError fun e => .other ("publish failed: " ++ e), service)

namespace Client
variable {κ ν : Type} [DecidableEq κ]

/-- A connected client before any call. -/
def init (calls : κ → Call) (service : ν) : Client κ ν where
  topics _ := none
  channels := 0
  rx _ := none
  streams _ := []
  commands := []
  replies _ := none
  phase c := (calls c).start
  service := service
  running := true
  gossip := none

/-- A receiver on the topic's sender, which is put into the map if there is
none. -/
def register (s : Client κ ν) (c : κ) (topic : String) : Client κ ν :=
  let (sender, channels) :=
    match s.topics topic with
    | some sender => (sender, s.channels)
    | none => (s.channels, s.channels + 1)
  { s with
    topics := Function.update s.topics topic (some sender)
    channels
    rx := Function.update s.rx c (some sender)
    phase := Function.update s.phase c .sending }

def send (s : Client κ ν) (c : κ) (cmd : Command κ) : Client κ ν :=
  { s with commands := s.commands ++ [cmd], phase := Function.update s.phase c .waiting }

/-- `send_command` returns: an `unsubscribe` goes on to the removal, and a
`subscribe` that failed drops its receiver. -/
def settle (s : Client κ ν) (c : κ) (call : Call) (outcome : Except NetworkError Unit) : Client κ ν :=
  match call, outcome with
  | .unsubscribe _, outcome => { s with phase := Function.update s.phase c (.removing outcome) }
  | .subscribe _, .error e =>
    { s with rx := Function.update s.rx c none, phase := Function.update s.phase c (.done (.error e)) }
  | _, outcome => { s with phase := Function.update s.phase c (.done outcome) }

/-- The last step of `unsubscribe`. -/
def remove (s : Client κ ν) (c : κ) (topic : String) (outcome : Except NetworkError Unit) : Client κ ν :=
  { s with topics := Function.update s.topics topic none, phase := Function.update s.phase c (.done outcome) }

/-- The event loop takes a command and replies. -/
def handle (s : Client κ ν) (svc : NetworkService ν) (cmd : Command κ) (rest : List (Command κ)) : Client κ ν :=
  let (res, service) := handleCommand svc s.service cmd
  { s with commands := rest, replies := Function.update s.replies cmd.reply (some res), service }

/-- Gossip goes to every receiver on the topic's sender, if there is one. -/
def fanOut (s : Client κ ν) (topic : String) (data : SectorBytes) : Client κ ν :=
  { s with
    gossip := none
    streams := fun c => if s.topics topic ≠ none ∧ s.rx c = s.topics topic then s.streams c ++ [data] else s.streams c }

/-- The event loop ends, and the commands it has not handled are dropped. -/
def stop (s : Client κ ν) : Client κ ν := { s with running := false, commands := [] }

/-- A turn of a call. -/
def callTurn (calls : κ → Call) (c : κ) (s : Client κ ν) : Option (Client κ ν) :=
  match s.phase c with
  | .registering => some (s.register c (calls c).topic)
  | .sending =>
    if s.running then
      -- a full channel lets the call wait
      if s.commands.length < commandChannelCapacity then some (s.send c ((calls c).command c)) else none
    else some (s.settle c (calls c) (.error (.other "grid event loop terminated")))
  | .waiting =>
    match s.replies c with
    | some outcome => some (s.settle c (calls c) outcome)
    | none =>
      if s.running then none
      else some (s.settle c (calls c) (.error (.other "grid event loop dropped command reply")))
  | .removing outcome => some (s.remove c (calls c).topic outcome)
  | .done _ => none

/-- `event_loop` and the calls, a step at a time. The loop takes nothing new
while it holds gossip. -/
def turn (svc : NetworkService ν) (calls : κ → Call) : Turn (Agent κ ν) (Client κ ν) (Label κ)
  | .call c, s => (s.callTurn calls c).map fun s' => (.internal, s')
  | .command, s =>
    if s.running ∧ s.gossip = none then
      match s.commands with
      | [] => none
      | cmd :: rest => some (.handled cmd (handleCommand svc s.service cmd).1, s.handle svc cmd rest)
    else none
  | .event event service, s =>
    if s.running ∧ s.gossip = none then
      match event with
      | none => some (.internal, s.stop)
      | some (.gossipMessage topic data) => some (.internal, { s with gossip := some (topic, data), service })
      | some .other => some (.internal, { s with service })
    else none
  | .fanOut, s =>
    match s.gossip with
    | none => none
    | some (topic, data) => some (.internal, s.fanOut topic data)
  | .shutdown, s => if s.running ∧ s.gossip = none then some (.internal, s.stop) else none

end Client

section Runs
variable {κ ν : Type} [DecidableEq κ]

/-- The client after the turns of a schedule. -/
def after (svc : NetworkService ν) (calls : κ → Call) (service : ν) (sched : List (Agent κ ν)) : Client κ ν :=
  Interleave.run (Client.turn svc calls) (Client.init calls service) sched

/-- The steps of a schedule. -/
def steps (svc : NetworkService ν) (calls : κ → Call) (service : ν) (sched : List (Agent κ ν)) :
    List (Agent κ ν × Label κ) :=
  Interleave.trace (Client.turn svc calls) (Client.init calls service) sched

/-- A handled command that changes the topic's subscription. -/
def Label.subscription (topic : String) : Label κ → Option (Command κ × Except NetworkError Unit)
  | .handled cmd result => if cmd.subscription = some topic then some (cmd, result) else none
  | .internal => none

/-- The last handled command that changes the topic's subscription, with its
result. -/
def lastCommand (topic : String) (tr : List (Agent κ ν × Label κ)) : Option (Command κ × Except NetworkError Unit) :=
  (tr.filterMap fun x => x.2.subscription topic).getLast?

/-- A `subscribe` of the topic relies on its sender: its command is the last
one handled, or is still to be handled. -/
def Relies (calls : κ → Call) (topic : String) (s : Client κ ν) (tr : List (Agent κ ν × Label κ)) (c : κ) : Prop :=
  lastCommand topic tr = some (.subscribe topic c, .ok ()) ∨
    calls c = .subscribe topic ∧ (s.phase c = .sending ∨ .subscribe topic c ∈ s.commands)

/-- No `unsubscribe` removes a sender that a `subscribe` relies on while the
event loop runs. -/
def RemovesUnused (svc : NetworkService ν) (calls : κ → Call) (service : ν) (sched : List (Agent κ ν)) : Prop :=
  ∀ pre u post topic outcome, sched = pre ++ .call u :: post → calls u = .unsubscribe topic →
    (after svc calls service pre).phase u = .removing outcome → (after svc calls service pre).running →
    ∀ c, ¬ Relies calls topic (after svc calls service pre) (steps svc calls service pre) c

/-- The topic's last command is the call's, it succeeded, and so did the call. -/
def Subscribed (topic : String) (s : Client κ ν) (tr : List (Agent κ ν × Label κ)) (c : κ) : Prop :=
  lastCommand topic tr = some (.subscribe topic c, .ok ()) ∧ s.phase c = .done (.ok ())

/-- Gossip on a topic that the event loop receives is sent to the stream of
the call that subscribed it: `mid` is what others do until the loop has the
lock. -/
def Delivers (svc : NetworkService ν) (calls : κ → Call) (service : ν) (sched : List (Agent κ ν)) : Prop :=
  ∀ pre topic data service' mid post c,
    sched = pre ++ .event (some (.gossipMessage topic data)) service' :: mid ++ .fanOut :: post → .fanOut ∉ mid →
    (after svc calls service pre).running → (after svc calls service pre).gossip = none →
    Subscribed topic (after svc calls service pre) (steps svc calls service pre) c →
    let held := pre ++ .event (some (.gossipMessage topic data)) service' :: mid
    (after svc calls service (held ++ [.fanOut])).streams c = (after svc calls service held).streams c ++ [data]

/-! ## Steps -/

/-- What a turn can do. -/
inductive Step (svc : NetworkService ν) (calls : κ → Call) (s : Client κ ν) :
    Agent κ ν → Label κ → Client κ ν → Prop
  | register (c) : s.phase c = .registering →
    Step svc calls s (.call c) .internal (s.register c (calls c).topic)
  | send (c) : s.phase c = .sending → s.running →
    Step svc calls s (.call c) .internal (s.send c ((calls c).command c))
  | settle (c outcome) : (s.phase c = .sending ∨ s.phase c = .waiting) →
    (s.running → s.phase c = .waiting ∧ s.replies c = some outcome) →
    Step svc calls s (.call c) .internal (s.settle c (calls c) outcome)
  | remove (c outcome) : s.phase c = .removing outcome →
    Step svc calls s (.call c) .internal (s.remove c (calls c).topic outcome)
  | handle (cmd rest) : s.gossip = none → s.commands = cmd :: rest →
    Step svc calls s .command (.handled cmd (handleCommand svc s.service cmd).1) (s.handle svc cmd rest)
  | receive (topic data service) : s.gossip = none →
    Step svc calls s (.event (some (.gossipMessage topic data)) service) .internal
      { s with gossip := some (topic, data), service }
  | ignore (service) : s.gossip = none →
    Step svc calls s (.event (some .other) service) .internal { s with service }
  | fanOut (topic data) : s.gossip = some (topic, data) → Step svc calls s .fanOut .internal (s.fanOut topic data)
  | stop (i) : s.gossip = none → Step svc calls s i .internal s.stop

variable {svc : NetworkService ν} {calls : κ → Call}

theorem turn_step {s s' : Client κ ν} {i : Agent κ ν} {l : Label κ} (h : Client.turn svc calls i s = some (l, s')) :
    Step svc calls s i l s' := by
  cases i with
  | call c =>
    simp only [Client.turn, Option.map_eq_some_iff, Prod.mk.injEq] at h
    obtain ⟨s', h, rfl, rfl⟩ := h
    simp only [Client.callTurn] at h
    split at h
    · next hp =>
      cases h
      exact .register c hp
    · next hp =>
      split at h
      · next hrun =>
        split at h
        · cases h
          exact .send c hp hrun
        · cases h
      · next hrun =>
        cases h
        exact .settle c _ (.inl hp) fun h => absurd h hrun
    · next hp =>
      split at h
      · next outcome hr =>
        cases h
        exact .settle c outcome (.inr hp) fun _ => ⟨hp, hr⟩
      · split at h
        · cases h
        · next hrun =>
          cases h
          exact .settle c _ (.inr hp) fun h => absurd h hrun
    · next outcome hp =>
      cases h
      exact .remove c outcome hp
    · cases h
  | command =>
    simp only [Client.turn] at h
    split at h
    · next hidle =>
      split at h
      · cases h
      · next cmd rest hq =>
        cases h
        exact .handle cmd rest hidle.2 hq
    · cases h
  | event event service =>
    simp only [Client.turn] at h
    split at h
    · next hidle =>
      split at h
      · cases h
        exact .stop _ hidle.2
      · cases h
        exact .receive _ _ _ hidle.2
      · cases h
        exact .ignore _ hidle.2
    · cases h
  | fanOut =>
    simp only [Client.turn] at h
    split at h
    · cases h
    · next topic data hg =>
      cases h
      exact .fanOut topic data hg
  | shutdown =>
    simp only [Client.turn] at h
    split at h
    · next hidle =>
      cases h
      exact .stop _ hidle.2
    · cases h

theorem settle_eq (s : Client κ ν) (c : κ) (call : Call) (outcome : Except NetworkError Unit) :
    ∃ p rx, s.settle c call outcome = { s with rx, phase := Function.update s.phase c p } ∧
      ((∃ topic, call = .unsubscribe topic ∧ p = .removing outcome) ∨ p = .done outcome) ∧
      (∀ c', c' ≠ c → rx c' = s.rx c') ∧ (outcome = .ok () → rx = s.rx) := by
  cases call with
  | subscribe topic =>
    cases outcome with
    | error e =>
      exact ⟨_, _, rfl, .inr rfl, fun c' hc => Function.update_of_ne hc _ _, fun h => by cases h⟩
    | ok u => exact ⟨_, _, rfl, .inr rfl, fun _ _ => rfl, fun _ => rfl⟩
  | unsubscribe topic => exact ⟨_, _, rfl, .inl ⟨topic, rfl, rfl⟩, fun _ _ => rfl, fun _ => rfl⟩
  | publish topic data => exact ⟨_, _, rfl, .inr rfl, fun _ _ => rfl, fun _ => rfl⟩

theorem register_eq (s : Client κ ν) (c : κ) (topic : String) :
    ∃ sender channels, s.register c topic = { s with
        topics := Function.update s.topics topic (some sender)
        channels
        rx := Function.update s.rx c (some sender)
        phase := Function.update s.phase c .sending } ∧
      ∀ old, s.topics topic = some old → sender = old := by
  unfold Client.register
  cases ht : s.topics topic with
  | none => exact ⟨_, _, rfl, fun old h => by cases h⟩
  | some sender => exact ⟨_, _, rfl, fun old h => Option.some.inj h⟩

omit [DecidableEq κ] in
@[simp] theorem lastCommand_internal (topic : String) (tr : List (Agent κ ν × Label κ)) (i : Agent κ ν) :
    lastCommand topic (tr ++ [(i, .internal)]) = lastCommand topic tr := by
  simp [lastCommand, Label.subscription]

omit [DecidableEq κ] in
theorem lastCommand_handled (topic : String) (tr : List (Agent κ ν × Label κ)) (i : Agent κ ν) (cmd : Command κ)
    (res : Except NetworkError Unit) :
    lastCommand topic (tr ++ [(i, .handled cmd res)]) =
      if cmd.subscription = some topic then some (cmd, res) else lastCommand topic tr := by
  by_cases h : cmd.subscription = some topic <;> simp [lastCommand, Label.subscription, h]


/-! ## Commands and replies -/

/-- Each call sends its command once and waits for one reply. -/
structure Orderly (calls : κ → Call) (s : Client κ ν) (tr : List (Agent κ ν × Label κ)) : Prop where
  queued : ∀ cmd ∈ s.commands, cmd = (calls cmd.reply).command cmd.reply ∧ s.phase cmd.reply = .waiting ∧
    s.replies cmd.reply = none
  once : (s.commands.map Command.reply).Nodup
  stopped : ¬ s.running → s.commands = []
  unsent : ∀ c, s.phase c = .registering ∨ s.phase c = .sending → s.replies c = none
  replied : ∀ topic c res, lastCommand topic tr = some (.subscribe topic c, res) → s.replies c = some res
  removing : ∀ c outcome, s.phase c = .removing outcome → ∃ topic, calls c = .unsubscribe topic

section Orderly
variable {s s' : Client κ ν} {tr : List (Agent κ ν × Label κ)} {i : Agent κ ν}

omit [DecidableEq κ] in
theorem Orderly.init (calls : κ → Call) (service : ν) : Orderly calls (Client.init calls service) [] where
  queued := by simp [Client.init]
  once := by simp [Client.init]
  stopped _ := rfl
  unsent _ _ := rfl
  replied := by simp [lastCommand]
  removing c outcome hc := by
    simp only [Client.init] at hc
    cases h : calls c <;> simp [h, Call.start] at hc

omit [DecidableEq κ] in
theorem Orderly.not_queued (h : Orderly calls s tr) {c : κ} (hc : s.phase c ≠ .waiting) :
    ∀ cmd ∈ s.commands, cmd.reply ≠ c := by
  rintro cmd hcmd rfl
  exact hc (h.queued cmd hcmd).2.1

omit [DecidableEq κ] in
theorem Orderly.loop (h : Orderly calls s tr) (hphase : s'.phase = s.phase) (hreplies : s'.replies = s.replies)
    (hcommands : s'.commands = s.commands ∧ s'.running = s.running ∨ s'.commands = []) :
    Orderly calls s' (tr ++ [(i, .internal)]) := by
  have hsub : s'.commands.Sublist s.commands := by
    rcases hcommands with ⟨heq, -⟩ | heq
    · rw [heq]
    · rw [heq]
      exact List.nil_sublist _
  refine ⟨fun cmd hcmd => ?_, h.once.sublist (hsub.map _), fun hrun => ?_, ?_, fun topic c res hlast => ?_, ?_⟩
  · rw [hphase, hreplies]
    exact h.queued cmd (hsub.subset hcmd)
  · rcases hcommands with ⟨heq, hr⟩ | heq
    · rw [hr] at hrun
      rw [heq]
      exact h.stopped hrun
    · exact heq
  · rw [hphase, hreplies]
    exact h.unsent
  · rw [hreplies]
    rw [lastCommand_internal] at hlast
    exact h.replied topic c res hlast
  · rw [hphase]
    exact h.removing

/-- A call without a command in the channel goes on to another phase. -/
theorem Orderly.update (h : Orderly calls s tr) {c : κ} {p : Phase} (hc : ∀ cmd ∈ s.commands, cmd.reply ≠ c)
    (hp : p = .registering ∨ p = .sending → s.replies c = none)
    (hremoving : ∀ outcome, p = .removing outcome → ∃ topic, calls c = .unsubscribe topic)
    (hphase : s'.phase = Function.update s.phase c p) (hcommands : s'.commands = s.commands)
    (hreplies : s'.replies = s.replies) (hrunning : s'.running = s.running) :
    Orderly calls s' (tr ++ [(i, .internal)]) := by
  refine ⟨fun cmd hcmd => ?_, ?_, ?_, fun c' hc' => ?_, fun topic c' res hlast => ?_, fun c' outcome hc' => ?_⟩
  · rw [hcommands] at hcmd
    rw [hphase, Function.update_of_ne (hc cmd hcmd), hreplies]
    exact h.queued cmd hcmd
  · rw [hcommands]
    exact h.once
  · rw [hcommands, hrunning]
    exact h.stopped
  · rw [hreplies]
    rw [hphase] at hc'
    by_cases hcc : c' = c
    · subst hcc
      rw [Function.update_self] at hc'
      exact hp hc'
    · rw [Function.update_of_ne hcc] at hc'
      exact h.unsent c' hc'
  · rw [hreplies]
    rw [lastCommand_internal] at hlast
    exact h.replied topic c' res hlast
  · rw [hphase] at hc'
    by_cases hcc : c' = c
    · subst hcc
      rw [Function.update_self] at hc'
      exact hremoving outcome hc'
    · rw [Function.update_of_ne hcc] at hc'
      exact h.removing c' outcome hc'

theorem Orderly.send (h : Orderly calls s tr) {c : κ} (hp : s.phase c = .sending) (hrun : s.running) :
    Orderly calls (s.send c ((calls c).command c)) (tr ++ [(i, .internal)]) := by
  have hnone := h.unsent c (.inr hp)
  have hnot := h.not_queued (c := c) (by rw [hp]; exact nofun)
  have hreply : ((calls c).command c).reply = c := by cases calls c <;> rfl
  refine ⟨fun cmd hcmd => ?_, ?_, fun h => absurd hrun h, fun c' hc' => ?_, fun topic c' res hlast => ?_,
    fun c' outcome hc' => ?_⟩
  · simp only [Client.send] at hcmd ⊢
    rcases List.mem_append.mp hcmd with hcmd | hcmd
    · rw [Function.update_of_ne (hnot cmd hcmd)]
      exact h.queued cmd hcmd
    · rw [List.mem_singleton.mp hcmd, hreply, Function.update_self]
      exact ⟨rfl, rfl, hnone⟩
  · simp only [Client.send, List.map_append, List.map_cons, List.map_nil, hreply]
    refine List.nodup_append.mpr ⟨h.once, List.nodup_singleton _, fun c' hc' d hd => ?_⟩
    obtain ⟨cmd, hcmd, rfl⟩ := List.mem_map.mp hc'
    rw [List.mem_singleton.mp hd]
    exact hnot cmd hcmd
  · simp only [Client.send] at hc' ⊢
    by_cases hcc : c' = c
    · rw [hcc]
      exact hnone
    · rw [Function.update_of_ne hcc] at hc'
      exact h.unsent c' hc'
  · rw [lastCommand_internal] at hlast
    exact h.replied topic c' res hlast
  · simp only [Client.send] at hc'
    by_cases hcc : c' = c
    · subst hcc
      rw [Function.update_self] at hc'
      cases hc'
    · rw [Function.update_of_ne hcc] at hc'
      exact h.removing c' outcome hc'

theorem Orderly.handle (h : Orderly calls s tr) {cmd : Command κ} {rest : List (Command κ)}
    (hq : s.commands = cmd :: rest) :
    Orderly calls (s.handle svc cmd rest) (tr ++ [(i, .handled cmd (handleCommand svc s.service cmd).1)]) := by
  have hmem : ∀ cmd' ∈ rest, cmd' ∈ s.commands := fun cmd' hcmd' => hq ▸ List.mem_cons_of_mem _ hcmd'
  have honce := h.once
  rw [hq, List.map_cons, List.nodup_cons] at honce
  obtain ⟨-, hwait, hnone⟩ := h.queued cmd (hq ▸ List.mem_cons_self)
  refine ⟨fun cmd' hcmd' => ?_, honce.2, fun hrun => ?_, fun c hc => ?_, fun topic c res hlast => ?_, h.removing⟩
  · have hne : cmd'.reply ≠ cmd.reply := fun heq => honce.1 (heq ▸ List.mem_map_of_mem hcmd')
    simp only [Client.handle, Function.update_of_ne hne]
    exact h.queued cmd' (hmem cmd' hcmd')
  · have := h.stopped hrun
    rw [hq] at this
    cases this
  · have hne : c ≠ cmd.reply := by
      rintro rfl
      simp [Client.handle, hwait] at hc
    simp only [Client.handle, Function.update_of_ne hne]
    exact h.unsent c hc
  · rw [lastCommand_handled] at hlast
    split at hlast
    · cases hlast
      simp only [Client.handle, Command.reply, Function.update_self]
    · have hr := h.replied topic c res hlast
      have hne : c ≠ cmd.reply := by
        rintro rfl
        rw [hnone] at hr
        cases hr
      simp only [Client.handle, Function.update_of_ne hne]
      exact hr

theorem Orderly.step {l : Label κ} (h : Orderly calls s tr) (hs : Step svc calls s i l s') :
    Orderly calls s' (tr ++ [(i, l)]) := by
  cases hs with
  | register c hp =>
    obtain ⟨sender, channels, heq, -⟩ := register_eq s c (calls c).topic
    rw [heq]
    exact h.update (h.not_queued (by rw [hp]; exact nofun)) (fun _ => h.unsent c (.inl hp)) (fun _ hr => by cases hr)
      rfl rfl rfl rfl
  | send c hp hrun => exact h.send hp hrun
  | settle c outcome hp hout =>
    obtain ⟨p, rx, heq, hkind, -, -⟩ := settle_eq s c (calls c) outcome
    rw [heq]
    have hnot : ∀ cmd ∈ s.commands, cmd.reply ≠ c := by
      rintro cmd hcmd rfl
      by_cases hrun : s.running
      · have hr := (hout hrun).2
        rw [(h.queued cmd hcmd).2.2] at hr
        cases hr
      · rw [h.stopped hrun] at hcmd
        cases hcmd
    refine h.update (p := p) hnot (fun hp => ?_) (fun outcome' hr => ?_) rfl rfl rfl rfl
    · rcases hkind with ⟨topic, -, rfl⟩ | rfl <;> simp at hp
    · rcases hkind with ⟨topic, hcall, -⟩ | rfl
      · exact ⟨topic, hcall⟩
      · cases hr
  | remove c outcome hp =>
    exact h.update (h.not_queued (by rw [hp]; exact nofun)) (fun hr => by simp at hr) (fun _ hr => by cases hr)
      rfl rfl rfl rfl
  | handle cmd rest hidle hq => exact h.handle hq
  | receive topic data service hidle => exact h.loop rfl rfl (.inl ⟨rfl, rfl⟩)
  | ignore service hidle => exact h.loop rfl rfl (.inl ⟨rfl, rfl⟩)
  | fanOut topic data hg => exact h.loop rfl rfl (.inl ⟨rfl, rfl⟩)
  | stop i hidle => exact h.loop rfl rfl (.inr rfl)

end Orderly

/-! ## Senders -/

/-- Whoever relies on a topic's sender has a receiver on it. -/
def Relayed (calls : κ → Call) (s : Client κ ν) (tr : List (Agent κ ν × Label κ)) : Prop :=
  s.running → ∀ topic c, Relies calls topic s tr c → ∃ sender, s.topics topic = some sender ∧ s.rx c = some sender

section Relayed
variable {s s' : Client κ ν} {tr : List (Agent κ ν × Label κ)} {i : Agent κ ν}

omit [DecidableEq κ] in
theorem Relies.not_registering {topic : String} {c : κ} (h : Relies calls topic s tr c) (ho : Orderly calls s tr) :
    s.phase c ≠ .registering := by
  intro hp
  rcases h with hlast | ⟨-, hsend | hqueue⟩
  · have hr := ho.replied topic c _ hlast
    rw [ho.unsent c (.inl hp)] at hr
    cases hr
  · rw [hp] at hsend
    cases hsend
  · have hwait := (ho.queued _ hqueue).2.1
    simp only [Command.reply, hp] at hwait
    cases hwait

omit [DecidableEq κ] in
theorem Relies.reply_ok {topic : String} {c : κ} (h : Relies calls topic s tr c) (ho : Orderly calls s tr)
    (hp : s.phase c = .waiting) {outcome : Except NetworkError Unit} (hr : s.replies c = some outcome) :
    outcome = .ok () := by
  rcases h with hlast | ⟨-, hsend | hqueue⟩
  · rw [ho.replied topic c _ hlast] at hr
    exact (Option.some.inj hr).symm
  · rw [hp] at hsend
    cases hsend
  · have hnone := (ho.queued _ hqueue).2.2
    simp only [Command.reply, hr] at hnone
    cases hnone

omit [DecidableEq κ] in
/-- A step after which nobody relies on more. -/
theorem Relayed.of_relies (h : Relayed calls s tr) {tr' : List (Agent κ ν × Label κ)} (hrun : s'.running → s.running)
    (hrelies : ∀ topic c, Relies calls topic s' tr' c → Relies calls topic s tr c)
    (htopics : s'.topics = s.topics) (hrx : s'.rx = s.rx) : Relayed calls s' tr' := by
  intro hr topic c hc
  rw [htopics, hrx]
  exact h (hrun hr) topic c (hrelies topic c hc)

omit [DecidableEq κ] in
theorem Relayed.loop (h : Relayed calls s tr) (hrunning : s'.running = s.running) (hphase : s'.phase = s.phase)
    (hcommands : s'.commands = s.commands) (htopics : s'.topics = s.topics) (hrx : s'.rx = s.rx) :
    Relayed calls s' (tr ++ [(i, .internal)]) := by
  refine h.of_relies (fun hr => hrunning ▸ hr) (fun topic c hc => ?_) htopics hrx
  rw [Relies, lastCommand_internal, hphase, hcommands] at hc
  exact hc

/-- A call that goes on to a phase in which it does not send. -/
theorem Relies.of_update {topic : String} {c c' : κ} {p : Phase}
    (h : Relies calls topic s' (tr ++ [(i, .internal)]) c') (hphase : s'.phase = Function.update s.phase c p)
    (hp : p ≠ .sending) (hcommands : s'.commands = s.commands) : Relies calls topic s tr c' := by
  rcases h with hlast | ⟨hcall, hsend | hqueue⟩
  · rw [lastCommand_internal] at hlast
    exact .inl hlast
  · rw [hphase] at hsend
    by_cases hcc : c' = c
    · subst hcc
      rw [Function.update_self] at hsend
      exact absurd hsend hp
    · rw [Function.update_of_ne hcc] at hsend
      exact .inr ⟨hcall, .inl hsend⟩
  · rw [hcommands] at hqueue
    exact .inr ⟨hcall, .inr hqueue⟩

theorem Relayed.register (h : Relayed calls s tr) (ho : Orderly calls s tr) {c : κ} (hp : s.phase c = .registering) :
    Relayed calls (s.register c (calls c).topic) (tr ++ [(i, .internal)]) := by
  obtain ⟨sender, channels, heq, hold⟩ := register_eq s c (calls c).topic
  rw [heq]
  intro hrun topic c' hc'
  by_cases hcc : c' = c
  · -- the call itself, which relied on nothing before
    subst hcc
    rcases hc' with hlast | ⟨hcall, -⟩
    · rw [lastCommand_internal] at hlast
      exact absurd hp (Relies.not_registering (.inl hlast) ho)
    · refine ⟨sender, ?_, Function.update_self _ _ _⟩
      rw [hcall]
      exact Function.update_self _ _ _
  · have hrel : Relies calls topic s tr c' := by
      rcases hc' with hlast | ⟨hcall, hsend | hqueue⟩
      · rw [lastCommand_internal] at hlast
        exact .inl hlast
      · simp only [Function.update_of_ne hcc] at hsend
        exact .inr ⟨hcall, .inl hsend⟩
      · exact .inr ⟨hcall, .inr hqueue⟩
    obtain ⟨sender', ht, hr⟩ := h hrun topic c' hrel
    refine ⟨sender', ?_, (Function.update_of_ne hcc _ _).trans hr⟩
    by_cases htopic : topic = (calls c).topic
    · -- an existing sender stays
      subst htopic
      rw [hold sender' ht]
      exact Function.update_self _ _ _
    · exact (Function.update_of_ne htopic _ _).trans ht

theorem Relayed.step {l : Label κ} (h : Relayed calls s tr) (ho : Orderly calls s tr) (hs : Step svc calls s i l s')
    (hremove : ∀ u outcome topic, i = .call u → s.phase u = .removing outcome → calls u = .unsubscribe topic →
      s.running → ∀ c, ¬ Relies calls topic s tr c) : Relayed calls s' (tr ++ [(i, l)]) := by
  cases hs with
  | register c hp => exact h.register ho hp
  | send c hp hrun =>
    refine h.of_relies id (fun topic c' hc' => ?_) rfl rfl
    rcases hc' with hlast | ⟨hcall, hsend | hqueue⟩
    · rw [lastCommand_internal] at hlast
      exact .inl hlast
    · simp only [Client.send] at hsend
      by_cases hcc : c' = c
      · subst hcc
        rw [Function.update_self] at hsend
        cases hsend
      · rw [Function.update_of_ne hcc] at hsend
        exact .inr ⟨hcall, .inl hsend⟩
    · simp only [Client.send] at hqueue
      rcases List.mem_append.mp hqueue with hqueue | hqueue
      · exact .inr ⟨hcall, .inr hqueue⟩
      · -- the command sent is the call's own
        have hreply := congrArg Command.reply (List.mem_singleton.mp hqueue)
        have hcc : c' = c := by
          cases hc : calls c <;> simpa [hc, Call.command, Command.reply] using hreply
        rw [hcc] at hcall ⊢
        exact .inr ⟨hcall, .inl hp⟩
  | settle c outcome hp hout =>
    obtain ⟨p, rx, heq, hkind, hother, hok⟩ := settle_eq s c (calls c) outcome
    rw [heq]
    intro hrun topic c' hc'
    have hp : p ≠ .sending := by
      rcases hkind with ⟨topic, -, rfl⟩ | rfl <;> exact nofun
    have hrel : Relies calls topic s tr c' := Relies.of_update (c := c) hc' rfl hp rfl
    obtain ⟨sender, ht, hr⟩ := h hrun topic c' hrel
    refine ⟨sender, ht, ?_⟩
    by_cases hcc : c' = c
    · subst hcc
      obtain ⟨hwait, hreply⟩ := hout hrun
      simp only [hok (hrel.reply_ok ho hwait hreply)]
      exact hr
    · simp only [hother c' hcc]
      exact hr
  | remove c outcome hp =>
    obtain ⟨topic', hcall⟩ := ho.removing c outcome hp
    intro hrun topic c' hc'
    have hrel : Relies calls topic s tr c' := Relies.of_update (c := c) (p := .done outcome) hc' rfl nofun rfl
    obtain ⟨sender, ht, hr⟩ := h hrun topic c' hrel
    refine ⟨sender, ?_, hr⟩
    have hne : topic ≠ (calls c).topic := by
      rintro rfl
      rw [hcall] at hrel
      exact hremove c outcome topic' rfl hp hcall hrun c' hrel
    exact (Function.update_of_ne hne _ _).trans ht
  | handle cmd rest hidle hq =>
    refine h.of_relies id (fun topic c' hc' => ?_) rfl rfl
    rcases hc' with hlast | ⟨hcall, hsend | hqueue⟩
    · rw [lastCommand_handled] at hlast
      split at hlast
      · -- the command was still to be handled
        obtain ⟨rfl, -⟩ := Prod.mk.inj (Option.some.inj hlast)
        have hmem : Command.subscribe topic c' ∈ s.commands := hq ▸ List.mem_cons_self
        refine .inr ⟨?_, .inr hmem⟩
        have hcmd := (ho.queued _ hmem).1
        simp only [Command.reply] at hcmd
        cases hc : calls c' <;> simp [hc, Call.command] at hcmd
        rw [hcmd]
      · exact .inl hlast
    · exact .inr ⟨hcall, .inl hsend⟩
    · exact .inr ⟨hcall, .inr (hq ▸ List.mem_cons_of_mem _ hqueue)⟩
  | receive topic data service hidle => exact h.loop rfl rfl rfl rfl rfl
  | ignore service hidle => exact h.loop rfl rfl rfl rfl rfl
  | fanOut topic data hg => exact h.loop rfl rfl rfl rfl rfl
  | stop i hidle =>
    intro hrun
    cases hrun

end Relayed

/-! ## Runs -/

theorem after_concat (service : ν) (sched : List (Agent κ ν)) (i : Agent κ ν) :
    after svc calls service (sched ++ [i]) = step (Client.turn svc calls) (after svc calls service sched) i :=
  run_concat _ _ _ _

theorem RemovesUnused.of_append {service : ν} {sched sched' : List (Agent κ ν)}
    (h : RemovesUnused svc calls service (sched ++ sched')) : RemovesUnused svc calls service sched := by
  intro pre u post topic outcome heq
  exact h pre u (post ++ sched') topic outcome (by rw [heq]; simp)

theorem run_relayed {service : ν} {sched : List (Agent κ ν)} (h : RemovesUnused svc calls service sched) :
    Orderly calls (after svc calls service sched) (steps svc calls service sched) ∧
      Relayed calls (after svc calls service sched) (steps svc calls service sched) := by
  induction sched using List.reverseRecOn with
  | nil =>
    refine ⟨.init calls service, fun _ topic c hc => ?_⟩
    rcases hc with hlast | ⟨hcall, hsend | hqueue⟩
    · cases hlast
    · have hstart : (calls c).start = .sending := hsend
      rw [hcall] at hstart
      cases hstart
    · cases hqueue
  | append_singleton sched i ih =>
    obtain ⟨ho, hr⟩ := ih h.of_append
    have htr : steps svc calls service (sched ++ [i]) =
        steps svc calls service sched ++ label (Client.turn svc calls) (after svc calls service sched) i :=
      trace_concat _ _ _ _
    rw [after_concat, htr]
    rcases step_cases (Client.turn svc calls) (after svc calls service sched) i with
      ⟨-, hs, hl⟩ | ⟨l, s', ht, hs, hl⟩
    · rw [hs, hl, List.append_nil]
      exact ⟨ho, hr⟩
    · rw [hs, hl]
      have hstep := turn_step ht
      refine ⟨ho.step hstep, hr.step ho hstep fun u outcome topic hi hp hcall hrun => ?_⟩
      exact h sched u [] topic outcome (by rw [hi]) hcall hp hrun

/-- While the event loop holds gossip it handles nothing. -/
theorem run_holding (svc : NetworkService ν) (calls : κ → Call) {s : Client κ ν} {m : String × SectorBytes}
    (hg : s.gossip = some m) {mid : List (Agent κ ν)} (hmid : .fanOut ∉ mid) :
    (Interleave.run (Client.turn svc calls) s mid).gossip = some m ∧
      (Interleave.run (Client.turn svc calls) s mid).running = s.running ∧
      ∀ topic tr, lastCommand topic (tr ++ Interleave.trace (Client.turn svc calls) s mid) = lastCommand topic tr := by
  induction mid generalizing s with
  | nil => exact ⟨hg, rfl, fun topic tr => by rw [trace, List.append_nil]⟩
  | cons i mid ih =>
    rw [List.mem_cons, not_or] at hmid
    cases ht : Client.turn svc calls i s with
    | none =>
      obtain ⟨hrun, htrace⟩ := run_cons_none ht mid
      rw [hrun, htrace]
      exact ih hg hmid.2
    | some x =>
      obtain ⟨l, s'⟩ := x
      obtain ⟨hrun, htrace⟩ := run_cons_some ht mid
      have hkept : s'.gossip = some m ∧ s'.running = s.running ∧ l = .internal := by
        cases turn_step ht with
        | register c hp =>
          obtain ⟨sender, channels, heq, -⟩ := register_eq s c (calls c).topic
          rw [heq]
          exact ⟨hg, rfl, rfl⟩
        | send c hp hrun => exact ⟨hg, rfl, rfl⟩
        | settle c outcome hp hout =>
          obtain ⟨p, rx, heq, -⟩ := settle_eq s c (calls c) outcome
          rw [heq]
          exact ⟨hg, rfl, rfl⟩
        | remove c outcome hp => exact ⟨hg, rfl, rfl⟩
        | fanOut topic data hg' => exact absurd rfl hmid.1
        | handle cmd rest hidle hq => exact absurd hidle (by rw [hg]; exact Option.some_ne_none m)
        | receive topic data service hidle => exact absurd hidle (by rw [hg]; exact Option.some_ne_none m)
        | ignore service hidle => exact absurd hidle (by rw [hg]; exact Option.some_ne_none m)
        | stop i hidle => exact absurd hidle (by rw [hg]; exact Option.some_ne_none m)
      obtain ⟨hg', hrunning, hlast⟩ := ih hkept.1 hmid.2
      rw [hrun, htrace]
      refine ⟨hg', hrunning.trans hkept.2.1, fun topic tr => ?_⟩
      rw [List.append_cons, hlast, hkept.2.2, lastCommand_internal]

/-- **Subscriptions deliver**, over every interleaving of any number of calls
with the event loop, in which no `unsubscribe` removes a sender that a
`subscribe` relies on: gossip received on a topic is sent to the stream of
the call whose command subscribed it last. -/
theorem subscription_delivers (svc : NetworkService ν) (calls : κ → Call) (service : ν) (sched : List (Agent κ ν))
    (h : RemovesUnused svc calls service sched) : Delivers svc calls service sched := by
  intro pre topic data service' mid post c hsched hmid hrun hidle hsub held
  have hheld : RemovesUnused svc calls service held := by
    rw [hsched] at h
    exact h.of_append
  obtain ⟨-, hrel⟩ := run_relayed hheld
  obtain ⟨s, hs⟩ : ∃ s, s = { after svc calls service pre with gossip := some (topic, data), service := service' } :=
    ⟨_, rfl⟩
  have ht : Client.turn svc calls (.event (some (.gossipMessage topic data)) service') (after svc calls service pre) =
      some (.internal, s) := by
    simp only [Client.turn, hrun, hidle, and_self, if_true, hs]
  obtain ⟨hrunMid, htraceMid⟩ := run_cons_some ht mid
  have hafter : after svc calls service held = Interleave.run (Client.turn svc calls) s mid := by
    rw [after, run_append]
    exact hrunMid
  have hsteps : steps svc calls service held = steps svc calls service pre ++
      (.event (some (.gossipMessage topic data)) service', .internal) ::
        Interleave.trace (Client.turn svc calls) s mid := by
    rw [steps, trace_append]
    exact congrArg _ htraceMid
  -- what the loop knows at the event is still so when it has the lock
  obtain ⟨hg, hrunning, hlast⟩ := run_holding svc calls (s := s) (by rw [hs]) hmid
  have hrelies : Relies calls topic (after svc calls service held) (steps svc calls service held) c := by
    refine .inl ?_
    rw [hsteps, List.append_cons, hlast, lastCommand_internal]
    exact hsub.1
  obtain ⟨sender, htopic, hrx⟩ := hrel (by rw [hafter, hrunning, hs]; exact hrun) topic c hrelies
  rw [after_concat, step, Client.turn, hafter, hg]
  simp only [Client.fanOut]
  rw [← hafter, htopic, hrx]
  simp

/-- A service that does what it is asked. -/
def obliging : NetworkService Unit where
  subscribe s _ := (.ok (), s)
  unsubscribe s _ := (.ok (), s)
  publish s _ _ := (.ok (), s)

/-- A topic is subscribed, unsubscribed and subscribed again. -/
def resubscribe : Fin 3 → Call
  | 0 => .subscribe "inbox"
  | 1 => .unsubscribe "inbox"
  | 2 => .subscribe "inbox"

/-- The second `subscribe` runs after the `unsubscribe`. -/
def inTurn : List (Agent (Fin 3) Unit) :=
  [.call 0, .call 0, .command, .call 0, .call 1, .command, .call 1, .call 1, .call 2, .call 2, .command, .call 2,
    .event (some (.gossipMessage "inbox" [7])) (), .fanOut]

/-- The `unsubscribe` removes the sender after the second `subscribe`. -/
def lateRemoval : List (Agent (Fin 3) Unit) :=
  [.call 0, .call 0, .command, .call 0, .call 1, .command, .call 1, .call 2, .call 2, .command, .call 2, .call 1,
    .event (some (.gossipMessage "inbox" [7])) (), .fanOut]

instance (calls : κ → Call) (topic : String) (s : Client κ ν) (tr : List (Agent κ ν × Label κ)) (c : κ) :
    Decidable (Relies calls topic s tr c) := inferInstanceAs (Decidable (_ ∨ _ ∧ (_ ∨ _)))

theorem subscription_delivers_in_turn :
    (after obliging resubscribe () inTurn).streams 2 = [[7]] ∧ Delivers obliging resubscribe () inTurn := by
  refine ⟨by decide +kernel, subscription_delivers obliging resubscribe () inTurn ?_⟩
  intro pre u post topic outcome hsched hcall hremoving _ c
  have hpre : pre = inTurn.take pre.length := by
    rw [hsched]
    simp
  have hget : inTurn[pre.length]? = some (.call u) := by
    rw [hsched]
    simp
  have hlen : pre.length < 14 := (List.getElem?_eq_some_iff.mp hget).1
  have htopic : topic = "inbox" := by
    have hall : ∀ u, (resubscribe u).topic = "inbox" := by decide
    rw [← hall u, hcall]
    rfl
  subst htopic
  rw [hpre] at hremoving ⊢
  have hok : outcome = .ok () := by
    have hphase : ∀ n : Fin 14, ∀ u, (after obliging resubscribe () (inTurn.take n)).phase u ∈
        [.registering, .sending, .waiting, .removing (.ok ()), .done (.ok ())] := by decide +kernel
    have hmem := hphase ⟨pre.length, hlen⟩ u
    simp only [hremoving] at hmem
    simpa using hmem
  subst hok
  have hcheck : ∀ n : Fin 14, ∀ u c : Fin 3, inTurn[n.val]? = some (.call u) → resubscribe u = .unsubscribe "inbox" →
      (after obliging resubscribe () (inTurn.take n)).phase u = .removing (.ok ()) →
      ¬ Relies resubscribe "inbox" (after obliging resubscribe () (inTurn.take n))
        (steps obliging resubscribe () (inTurn.take n)) c := by decide +kernel
  exact hcheck ⟨pre.length, hlen⟩ u c hget hcall hremoving

/-- The topic is subscribed, its call has returned `Ok`, and gossip on it goes
nowhere. -/
theorem resubscription_lost :
    lastCommand "inbox" (steps obliging resubscribe () lateRemoval) = some (.subscribe "inbox" 2, .ok ()) ∧
      (after obliging resubscribe () lateRemoval).phase 2 = .done (.ok ()) ∧
      (after obliging resubscribe () lateRemoval).streams 2 = [] ∧ ¬ Delivers obliging resubscribe () lateRemoval := by
  refine ⟨by decide +kernel, by decide +kernel, by decide +kernel, fun h => ?_⟩
  have hsent := h (lateRemoval.take 12) "inbox" [7] () [] [] 2 rfl List.not_mem_nil (by decide +kernel)
    (by decide +kernel) ⟨by decide +kernel, by decide +kernel⟩
  exact absurd hsent (by decide +kernel)

end Runs

end ZeroSdk.Grid
