/-
What the calls of `RealGridClient` are told. A call sends one command with a
reply slot into a channel of 64 places and waits; the event loop handles the
commands one after the other and fills the slots.

`calls_served`: in every run the commands are handled in the order in which
they were sent, none twice and none skipped, and a call that has ended was
told the result of its own command, or, once the loop has ended, that its
command was not handled.
-/
import ZeroSdk.Network.Streams

namespace ZeroSdk.Grid
open Interleave

variable {κ ν : Type} [DecidableEq κ]

/-! ## Commands sent and handled -/

/-- The commands handled in a run, with their results. -/
def handled (tr : List (Agent κ ν × Label κ)) : List (Command κ × Except NetworkError Unit) :=
  tr.filterMap fun x =>
    match x.2 with
    | .handled cmd result => some (cmd, result)
    | .internal => none

/-- The command a turn puts into the channel. -/
def sends (calls : κ → Call) (s : Client κ ν) : Agent κ ν → List (Command κ)
  | .call c =>
    if s.phase c = .sending ∧ s.running ∧ s.commands.length < commandChannelCapacity then [(calls c).command c] else []
  | _ => []

/-- The commands sent in the course of a schedule. -/
def sent (svc : NetworkService ν) (calls : κ → Call) (s : Client κ ν) : List (Agent κ ν) → List (Command κ)
  | [] => []
  | i :: sched => sends calls s i ++ sent svc calls (step (Client.turn svc calls) s i) sched

/-- The errors of `send_command` when the event loop has ended: before the
command was sent, and before it was handled. -/
def loopTerminated : NetworkError := .other "grid event loop terminated"

def replyDropped : NetworkError := .other "grid event loop dropped command reply"

/-- What a call that has got its outcome was told. -/
def Phase.outcome : Phase → Option (Except NetworkError Unit)
  | .removing outcome | .done outcome => some outcome
  | _ => none

/-- The calls' commands, those sent and those handled. -/
structure Served (calls : κ → Call) (s : Client κ ν) (sent : List (Command κ))
    (handled : List (Command κ × Except NetworkError Unit)) : Prop where
  /-- Commands are handled in the order sent; those in the channel come next,
  and only the end of the event loop drops some. -/
  fifo : ∃ dropped, sent = handled.map (·.1) ++ s.commands ++ dropped ∧ (s.running → dropped = [])
  /-- Each call sends at most its own command, once. -/
  own : ∀ cmd ∈ sent, cmd = (calls cmd.reply).command cmd.reply
  once : (sent.map Command.reply).Nodup
  /-- A call is told what its command resulted in, or that the loop ended. -/
  outcome : ∀ c outcome, (s.phase c).outcome = some outcome →
    ((calls c).command c, outcome) ∈ handled ∨
      ¬ s.running ∧ (∀ x ∈ handled, x.1.reply ≠ c) ∧
        ((calls c).command c ∉ sent ∧ outcome = .error loopTerminated ∨
          (calls c).command c ∈ sent ∧ outcome = .error replyDropped)

/-! ## Turns of a call -/

variable {svc : NetworkService ν} {calls : κ → Call} {s s' : Client κ ν} {c : κ}

/-- What a turn of a call can do. -/
inductive CallStep (calls : κ → Call) (c : κ) (s : Client κ ν) : Client κ ν → Prop
  | register : s.phase c = .registering → CallStep calls c s (s.register c (calls c).topic)
  | send : s.phase c = .sending → s.running → s.commands.length < commandChannelCapacity →
    CallStep calls c s (s.send c ((calls c).command c))
  | terminated : s.phase c = .sending → ¬ s.running → CallStep calls c s (s.settle c (calls c) (.error loopTerminated))
  | replied (outcome) : s.phase c = .waiting → s.replies c = some outcome →
    CallStep calls c s (s.settle c (calls c) outcome)
  | dropped : s.phase c = .waiting → s.replies c = none → ¬ s.running →
    CallStep calls c s (s.settle c (calls c) (.error replyDropped))
  | remove (outcome) : s.phase c = .removing outcome → CallStep calls c s (s.remove c (calls c).topic outcome)

theorem callTurn_step (h : s.callTurn calls c = some s') : CallStep calls c s s' := by
  simp only [Client.callTurn] at h
  split at h
  · next hp =>
    cases h
    exact .register hp
  · next hp =>
    split at h
    · next hrun =>
      split at h
      · next hroom =>
        cases h
        exact .send hp hrun hroom
      · cases h
    · next hrun =>
      cases h
      exact .terminated hp hrun
  · next hp =>
    split at h
    · next outcome hr =>
      cases h
      exact .replied outcome hp hr
    · next hr =>
      split at h
      · cases h
      · next hrun =>
        cases h
        exact .dropped hp hr hrun
  · next outcome hp =>
    cases h
    exact .remove outcome hp
  · cases h

/-- What a turn of the event loop can do. -/
inductive LoopStep (svc : NetworkService ν) (s : Client κ ν) : Label κ → Client κ ν → Prop
  | handle (cmd rest) : s.running → s.commands = cmd :: rest →
    LoopStep svc s (.handled cmd (handleCommand svc s.service cmd).1) (s.handle svc cmd rest)
  | receive (gossip service) : LoopStep svc s .internal { s with gossip, service }
  | fanOut (topic data) : LoopStep svc s .internal (s.fanOut topic data)
  | stop : LoopStep svc s .internal s.stop

theorem turn_cases {i : Agent κ ν} {l : Label κ} (h : Client.turn svc calls i s = some (l, s')) :
    (∃ c, i = .call c ∧ l = .internal ∧ CallStep calls c s s') ∨ (LoopStep svc s l s' ∧ sends calls s i = []) := by
  cases i with
  | call c =>
    simp only [Client.turn, Option.map_eq_some_iff, Prod.mk.injEq] at h
    obtain ⟨s', h, rfl, rfl⟩ := h
    exact .inl ⟨c, rfl, rfl, callTurn_step h⟩
  | command =>
    simp only [Client.turn] at h
    split at h
    · next hidle =>
      split at h
      · cases h
      · next cmd rest hq =>
        cases h
        exact .inr ⟨.handle cmd rest hidle.1 hq, rfl⟩
    · cases h
  | event event service =>
    simp only [Client.turn] at h
    split at h
    · split at h
      · cases h
        exact .inr ⟨.stop, rfl⟩
      · cases h
        exact .inr ⟨.receive _ _, rfl⟩
      · cases h
        exact .inr ⟨.receive _ _, rfl⟩
    · cases h
  | fanOut =>
    simp only [Client.turn] at h
    split at h
    · cases h
    · cases h
      exact .inr ⟨.fanOut _ _, rfl⟩
  | shutdown =>
    simp only [Client.turn] at h
    split at h
    · cases h
      exact .inr ⟨.stop, rfl⟩
    · cases h

/-! ## The ledger -/

/-- What the phases and reply slots say of the commands sent and handled. -/
structure Ledger (calls : κ → Call) (s : Client κ ν) (sent : List (Command κ))
    (handled : List (Command κ × Except NetworkError Unit)) : Prop extends Served calls s sent handled where
  stopped : ¬ s.running → s.commands = []
  unsent : ∀ c, s.phase c = .registering ∨ s.phase c = .sending → (calls c).command c ∉ sent
  waiting : ∀ c, s.phase c = .waiting → (calls c).command c ∈ sent
  replied : ∀ c outcome, s.replies c = some outcome → ((calls c).command c, outcome) ∈ handled
  unreplied : ∀ c, s.replies c = none → ∀ x ∈ handled, x.1.reply ≠ c

omit [DecidableEq κ] in
@[simp] theorem reply_command (call : Call) (c : κ) : (call.command c).reply = c := by cases call <;> rfl

section Ledger
variable {out : List (Command κ)} {done : List (Command κ × Except NetworkError Unit)}

omit [DecidableEq κ] in
theorem Ledger.init (calls : κ → Call) (service : ν) : Ledger calls (Client.init calls service) [] [] where
  fifo := ⟨[], rfl, fun _ => rfl⟩
  own _ h := by cases h
  once := List.nodup_nil
  outcome c outcome h := by
    simp only [Client.init] at h
    cases hc : calls c <;> simp [hc, Call.start, Phase.outcome] at h
  stopped _ := rfl
  unsent _ _ h := by cases h
  waiting c h := by
    simp only [Client.init] at h
    cases hc : calls c <;> simp [hc, Call.start] at h
  replied _ _ h := by cases h
  unreplied _ _ _ h := by cases h

omit [DecidableEq κ] in
theorem Served.mem_commands (h : Served calls s out done) {cmd : Command κ} (hcmd : cmd ∈ s.commands) : cmd ∈ out := by
  obtain ⟨dropped, hfifo, -⟩ := h.fifo
  rw [hfifo]
  exact List.mem_append_left _ (List.mem_append_right _ hcmd)

omit [DecidableEq κ] in
/-- A call that has not sent its command is in no slot. -/
theorem Served.reply_ne (h : Served calls s out done) (hc : (calls c).command c ∉ out) : ∀ cmd ∈ out, cmd.reply ≠ c := by
  rintro cmd hcmd rfl
  rw [← h.own cmd hcmd] at hc
  exact hc hcmd

/-- A call goes on to another phase, with nothing sent or handled. -/
theorem Ledger.move (h : Ledger calls s out done) {p : Phase} (hphase : s'.phase = Function.update s.phase c p)
    (hcommands : s'.commands = s.commands) (hreplies : s'.replies = s.replies) (hrunning : s'.running = s.running)
    (houtcome : ∀ outcome, p.outcome = some outcome → ((calls c).command c, outcome) ∈ done ∨
      ¬ s.running ∧ (∀ x ∈ done, x.1.reply ≠ c) ∧
        ((calls c).command c ∉ out ∧ outcome = .error loopTerminated ∨
          (calls c).command c ∈ out ∧ outcome = .error replyDropped))
    (hunsent : p = .registering ∨ p = .sending → (calls c).command c ∉ out) (hwaiting : p ≠ .waiting) :
    Ledger calls s' out done := by
  have hother : ∀ c', c' ≠ c → s'.phase c' = s.phase c' := by
    intro c' hc'
    rw [hphase, Function.update_of_ne hc']
  have hself : s'.phase c = p := by rw [hphase, Function.update_self]
  refine ⟨⟨?_, h.own, h.once, fun c' outcome ho => ?_⟩, ?_, fun c' hp => ?_, fun c' hp => ?_, ?_, ?_⟩
  · rw [hcommands, hrunning]
    exact h.fifo
  · rw [hrunning]
    by_cases hcc : c' = c
    · subst hcc
      rw [hself] at ho
      exact houtcome outcome ho
    · rw [hother c' hcc] at ho
      exact h.outcome c' outcome ho
  · rw [hrunning, hcommands]
    exact h.stopped
  · by_cases hcc : c' = c
    · subst hcc
      rw [hself] at hp
      exact hunsent hp
    · rw [hother c' hcc] at hp
      exact h.unsent c' hp
  · by_cases hcc : c' = c
    · subst hcc
      rw [hself] at hp
      exact absurd hp hwaiting
    · rw [hother c' hcc] at hp
      exact h.waiting c' hp
  · rw [hreplies]
    exact h.replied
  · rw [hreplies]
    exact h.unreplied

theorem Ledger.send (h : Ledger calls s out done) (hp : s.phase c = .sending) (hrun : s.running) :
    Ledger calls (s.send c ((calls c).command c)) (out ++ [(calls c).command c]) done := by
  have hnot := h.unsent c (.inr hp)
  have hother : ∀ c', c' ≠ c → (s.send c ((calls c).command c)).phase c' = s.phase c' := by
    intro c' hc'
    exact Function.update_of_ne hc' _ _
  have hself : (s.send c ((calls c).command c)).phase c = .waiting := Function.update_self _ _ _
  have hmem : ∀ c', c' ≠ c → ((calls c').command c' ∈ out ++ [(calls c).command c] ↔ (calls c').command c' ∈ out) := by
    intro c' hc'
    rw [List.mem_append, List.mem_singleton, or_iff_left]
    intro heq
    have hreply := congrArg Command.reply heq
    rw [reply_command, reply_command] at hreply
    exact hc' hreply
  obtain ⟨dropped, hfifo, hnone⟩ := h.fifo
  refine ⟨⟨⟨[], ?_, fun _ => rfl⟩, fun cmd hcmd => ?_, ?_, fun c' outcome ho => ?_⟩, fun hstop => absurd hrun hstop,
    fun c' hp' => ?_, fun c' hp' => ?_, h.replied, h.unreplied⟩
  · rw [hfifo, hnone hrun]
    simp [Client.send]
  · rcases List.mem_append.mp hcmd with hcmd | hcmd
    · exact h.own cmd hcmd
    · rw [List.mem_singleton.mp hcmd, reply_command]
  · rw [List.map_append, List.map_cons, List.map_nil, reply_command]
    refine List.nodup_append.mpr ⟨h.once, List.nodup_singleton _, fun c' hc' d hd => ?_⟩
    obtain ⟨cmd, hcmd, rfl⟩ := List.mem_map.mp hc'
    rw [List.mem_singleton.mp hd]
    exact h.reply_ne hnot cmd hcmd
  · have hcc : c' ≠ c := by
      rintro rfl
      rw [hself] at ho
      cases ho
    rw [hother c' hcc] at ho
    rw [hmem c' hcc]
    exact h.outcome c' outcome ho
  · have hcc : c' ≠ c := by
      rintro rfl
      rw [hself] at hp'
      simp at hp'
    rw [hother c' hcc] at hp'
    rw [hmem c' hcc]
    exact h.unsent c' hp'
  · by_cases hcc : c' = c
    · subst hcc
      exact List.mem_append_right _ List.mem_cons_self
    · rw [hother c' hcc] at hp'
      rw [hmem c' hcc]
      exact h.waiting c' hp'

theorem Ledger.handle (h : Ledger calls s out done) {cmd : Command κ} {rest : List (Command κ)}
    (hrun : s.running) (hq : s.commands = cmd :: rest) :
    Ledger calls (s.handle svc cmd rest) out (done ++ [(cmd, (handleCommand svc s.service cmd).1)]) := by
  have hcmd : cmd ∈ s.commands := hq ▸ List.mem_cons_self
  have hown := h.own cmd (h.mem_commands hcmd)
  obtain ⟨dropped, hfifo, hnone⟩ := h.fifo
  refine ⟨⟨⟨dropped, ?_, hnone⟩, h.own, h.once, fun c outcome ho => ?_⟩, fun hstop => absurd hrun hstop, h.unsent,
    h.waiting, fun c outcome hr => ?_, fun c hr x hx => ?_⟩
  · rw [hfifo, hq]
    simp [Client.handle]
  · rcases h.outcome c outcome ho with hdone | ⟨hstop, -⟩
    · exact .inl (List.mem_append_left _ hdone)
    · exact absurd hrun hstop
  · simp only [Client.handle] at hr
    by_cases hcc : c = cmd.reply
    · subst hcc
      rw [Function.update_self] at hr
      rw [← hown, ← Option.some.inj hr]
      exact List.mem_append_right _ List.mem_cons_self
    · rw [Function.update_of_ne hcc] at hr
      exact List.mem_append_left _ (h.replied c outcome hr)
  · simp only [Client.handle] at hr
    by_cases hcc : c = cmd.reply
    · subst hcc
      rw [Function.update_self] at hr
      cases hr
    · rw [Function.update_of_ne hcc] at hr
      rcases List.mem_append.mp hx with hx | hx
      · exact h.unreplied c hr x hx
      · rw [List.mem_singleton.mp hx]
        exact Ne.symm hcc

omit [DecidableEq κ] in
/-- The event loop does something else than handle a command. -/
theorem Ledger.loop (h : Ledger calls s out done) (hphase : s'.phase = s.phase) (hreplies : s'.replies = s.replies)
    (hcommands : s'.commands = s.commands ∧ s'.running = s.running ∨ s'.commands = [] ∧ ¬ s'.running) :
    Ledger calls s' out done := by
  obtain ⟨dropped, hfifo, hnone⟩ := h.fifo
  rcases hcommands with ⟨hcommands, hrunning⟩ | ⟨hempty, hstop⟩
  · refine ⟨⟨⟨dropped, by rw [hcommands, hfifo], fun hr => hnone (hrunning ▸ hr)⟩, h.own, h.once, ?_⟩, ?_, ?_, ?_, ?_, ?_⟩
    · rw [hphase, hrunning]
      exact h.outcome
    · rw [hrunning, hcommands]
      exact h.stopped
    · rw [hphase]
      exact h.unsent
    · rw [hphase]
      exact h.waiting
    · rw [hreplies]
      exact h.replied
    · rw [hreplies]
      exact h.unreplied
  · refine ⟨⟨⟨s.commands ++ dropped, ?_, fun hr => absurd hr hstop⟩, h.own, h.once, fun c outcome ho => ?_⟩,
      fun _ => hempty, ?_, ?_, ?_, ?_⟩
    · rw [hempty, List.append_nil, hfifo, List.append_assoc]
    · rw [hphase] at ho
      rcases h.outcome c outcome ho with hdone | ⟨-, hrest⟩
      · exact .inl hdone
      · exact .inr ⟨hstop, hrest⟩
    · rw [hphase]
      exact h.unsent
    · rw [hphase]
      exact h.waiting
    · rw [hreplies]
      exact h.replied
    · rw [hreplies]
      exact h.unreplied

omit [DecidableEq κ] in
theorem sends_eq_nil (h : s.phase c ≠ .sending ∨ ¬ s.running) : sends (ν := ν) calls s (.call c) = [] := by
  refine if_neg ?_
  rintro ⟨hp, hrun, -⟩
  rcases h with h | h
  · exact h hp
  · exact h hrun

theorem Ledger.settle (h : Ledger calls s out done) {outcome : Except NetworkError Unit}
    (houtcome : ((calls c).command c, outcome) ∈ done ∨
      ¬ s.running ∧ (∀ x ∈ done, x.1.reply ≠ c) ∧
        ((calls c).command c ∉ out ∧ outcome = .error loopTerminated ∨
          (calls c).command c ∈ out ∧ outcome = .error replyDropped)) :
    Ledger calls (s.settle c (calls c) outcome) out done := by
  obtain ⟨p, rx, heq, hp, -⟩ := settle_cases s c (calls c) outcome
  have hout : p.outcome = some outcome := by rcases hp with rfl | rfl <;> rfl
  rw [heq]
  refine h.move rfl rfl rfl rfl (fun outcome' ho => ?_) (fun hsend => ?_) ?_
  · rw [hout] at ho
    rw [← Option.some.inj ho]
    exact houtcome
  · rcases hp with rfl | rfl <;> simp at hsend
  · rcases hp with rfl | rfl <;> exact nofun

theorem Ledger.call (h : Ledger calls s out done) (hs : CallStep calls c s s') :
    Ledger calls s' (out ++ sends (ν := ν) calls s (.call c)) done := by
  cases hs with
  | register hp =>
    rw [sends_eq_nil (.inl (by rw [hp]; exact nofun)), List.append_nil]
    obtain ⟨sender, channels, heq, -⟩ := register_cases s c (calls c).topic
    rw [heq]
    exact h.move rfl rfl rfl rfl nofun (fun _ => h.unsent c (.inl hp)) nofun
  | send hp hrun hroom =>
    have hsends : sends (ν := ν) calls s (.call c) = [(calls c).command c] := if_pos ⟨hp, hrun, hroom⟩
    rw [hsends]
    exact h.send hp hrun
  | terminated hp hstop =>
    rw [sends_eq_nil (.inr hstop), List.append_nil]
    have hunsent := h.unsent c (.inr hp)
    refine h.settle (.inr ⟨hstop, fun x hx => ?_, .inl ⟨hunsent, rfl⟩⟩)
    obtain ⟨dropped, hfifo, -⟩ := h.fifo
    refine h.reply_ne hunsent x.1 ?_
    rw [hfifo, List.append_assoc]
    exact List.mem_append_left _ (List.mem_map_of_mem hx)
  | replied outcome hp hr =>
    rw [sends_eq_nil (.inl (by rw [hp]; exact nofun)), List.append_nil]
    exact h.settle (.inl (h.replied c outcome hr))
  | dropped hp hr hstop =>
    rw [sends_eq_nil (.inr hstop), List.append_nil]
    exact h.settle (.inr ⟨hstop, h.unreplied c hr, .inr ⟨h.waiting c hp, rfl⟩⟩)
  | remove outcome hp =>
    rw [sends_eq_nil (.inl (by rw [hp]; exact nofun)), List.append_nil]
    refine h.move (p := .done outcome) rfl rfl rfl rfl (fun outcome' ho => ?_) (fun hsend => by simp at hsend) nofun
    rw [← Option.some.inj ho]
    exact h.outcome c outcome (by rw [hp]; rfl)

theorem Ledger.turn {i : Agent κ ν} {l : Label κ} (h : Ledger calls s out done)
    (ht : Client.turn svc calls i s = some (l, s')) :
    Ledger calls s' (out ++ sends calls s i) (done ++ handled [(i, l)]) := by
  have hnone : handled [(i, .internal)] = [] := rfl
  rcases turn_cases ht with ⟨c, rfl, rfl, hs⟩ | ⟨hs, hsends⟩
  · rw [hnone, List.append_nil]
    exact h.call hs
  · rw [hsends, List.append_nil]
    cases hs with
    | handle cmd rest hrun hq => exact h.handle hrun hq
    | receive gossip service =>
      rw [hnone, List.append_nil]
      exact h.loop rfl rfl (.inl ⟨rfl, rfl⟩)
    | fanOut topic data =>
      rw [hnone, List.append_nil]
      exact h.loop rfl rfl (.inl ⟨rfl, rfl⟩)
    | stop =>
      rw [hnone, List.append_nil]
      exact h.loop rfl rfl (.inr ⟨rfl, Bool.false_ne_true⟩)

end Ledger

/-! ## Runs -/

theorem sent_concat (svc : NetworkService ν) (calls : κ → Call) (s : Client κ ν) (sched : List (Agent κ ν))
    (i : Agent κ ν) : sent svc calls s (sched ++ [i]) =
      sent svc calls s sched ++ sends calls (Interleave.run (Client.turn svc calls) s sched) i := by
  induction sched generalizing s with
  | nil => exact List.append_nil _
  | cons j sched ih =>
    rw [List.cons_append, sent, sent, ih, List.append_assoc]
    rfl

omit [DecidableEq κ] in
theorem handled_append (tr tr' : List (Agent κ ν × Label κ)) : handled (tr ++ tr') = handled tr ++ handled tr' :=
  List.filterMap_append

theorem sends_of_none {i : Agent κ ν} (ht : Client.turn svc calls i s = none) : sends calls s i = [] := by
  cases i with
  | call c =>
    refine if_neg ?_
    rintro ⟨hp, hrun, hroom⟩
    simp [Client.turn, Client.callTurn, hp, hrun, hroom] at ht
  | _ => rfl

theorem run_ledger (svc : NetworkService ν) (calls : κ → Call) (service : ν) (sched : List (Agent κ ν)) :
    Ledger calls (after svc calls service sched) (sent svc calls (.init calls service) sched)
      (handled (steps svc calls service sched)) := by
  induction sched using List.reverseRecOn with
  | nil => exact .init calls service
  | append_singleton sched i ih =>
    have hsteps : steps svc calls service (sched ++ [i]) =
        steps svc calls service sched ++ label (Client.turn svc calls) (after svc calls service sched) i :=
      trace_concat _ _ _ _
    rw [after_concat, hsteps, sent_concat, handled_append]
    change Ledger calls _ (_ ++ sends calls (after svc calls service sched) i) _
    rcases step_cases (Client.turn svc calls) (after svc calls service sched) i with
      ⟨ht, hs, hl⟩ | ⟨l, s', ht, hs, hl⟩
    · rw [hs, hl, sends_of_none ht, List.append_nil]
      exact (List.append_nil _).symm ▸ ih
    · rw [hs, hl]
      exact ih.turn ht

/-- **Calls are served in order**, over every interleaving of any number of
calls with the event loop. -/
theorem calls_served (svc : NetworkService ν) (calls : κ → Call) (service : ν) (sched : List (Agent κ ν)) :
    Served calls (after svc calls service sched) (sent svc calls (.init calls service) sched)
      (handled (steps svc calls service sched)) := (run_ledger svc calls service sched).toServed

end ZeroSdk.Grid
