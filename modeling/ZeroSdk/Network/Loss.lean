/-
Which sectors the pump can lose. The outbox may hold several sectors under
one topic, as two messages to one recipient are, and new ones come in at any
point. The pump names a topic, not a sector: its `ack` or `remove` drops
whatever is queued under the topic by then, and `record_failure` charges an
attempt to all of it. A sector that comes in while another one of its topic
is in flight is gone without having been published (`enqueued_during_publish`).

`no_sector_lost`: in a run where, whenever a publish is settled, nothing but
its own sector is queued under the topic, every sector that is gone was
published with success, or failed five times.
-/
import Mathlib.Data.List.Induction
import ZeroSdk.Network.Retry

namespace ZeroSdk.Retry

/-- A step of the pump, or a sector enqueued by someone else. -/
inductive Action
  | pump (a : PumpStep)
  | enqueue (topic : String) (payload : Bytes) (nextAttemptMs : UInt64)

section Loss
variable {σ : Type} (H : OutboxHandle σ) (enqueue : σ → String → Bytes → UInt64 → σ) (tx : Bool)
  (queue : σ → List QueuedEntry)

/-- A new sector is queued with no attempts, next to what is there. -/
def Enqueues : Prop :=
  ∀ s topic payload next, (queue (enqueue s topic payload next)).Perm (⟨topic, payload, 0, next⟩ :: queue s)

def Pump.act (st : Pump σ) : Action → Pump σ
  | .pump a => st.step H tx a
  | .enqueue topic payload next => { st with outbox := enqueue st.outbox topic payload next }

def Pump.runActs (st : Pump σ) (acts : List Action) : Pump σ := acts.foldl (Pump.act H enqueue tx) st

/-- The sectors enqueued. -/
def enqueued (acts : List Action) : List (String × Bytes) :=
  acts.filterMap fun
    | .pump _ => none
    | .enqueue topic payload _ => some (topic, payload)

/-- If the step settles a publish, only its own sector is queued under its
topic. -/
def SettlesAlone (st : Pump σ) : Action → Prop
  | .pump (.settle _ _) => ∀ p ∈ st.inFlight, ∀ q ∈ queue st.outbox, q.topic = p.entry.topic → q.sector = p.entry.sector
  | _ => True

/-- Every sector of `enq` is queued, or has had its publishes; and no attempt
is counted that did not fail. -/
structure Accounted (enq : List (String × Bytes)) (st : Pump σ) : Prop where
  sectors : ∀ s ∈ enq, (∃ q ∈ queue st.outbox, q.sector = s) ∨ 0 < successes s st.settled ∨
    retryMaxAttempts.toNat ≤ failures s st.settled
  attempts_le : ∀ q ∈ queue st.outbox, q.attempts.toNat ≤ failures q.sector st.settled
  hand_le : ∀ e ∈ st.hand, e.attempts.toNat ≤ failures e.sector st.settled

variable {H enqueue tx queue} {enq : List (String × Bytes)} {st : Pump σ}

theorem Accounted.move (h : Accounted queue enq st) {pc : Pc}
    (hhand : ∀ e ∈ ({ st with pc } : Pump σ).hand, e.attempts.toNat ≤ failures e.sector st.settled) :
    Accounted queue enq { st with pc } := ⟨h.sectors, h.attempts_le, hhand⟩

theorem accounted_enqueue (henq : Enqueues enqueue queue) (h : Accounted queue enq st) (topic : String)
    (payload : Bytes) (next : UInt64) :
    Accounted queue (enq ++ [(topic, payload)]) { st with outbox := enqueue st.outbox topic payload next } := by
  have hmem : ∀ q, q ∈ queue (enqueue st.outbox topic payload next) ↔
      q = ⟨topic, payload, 0, next⟩ ∨ q ∈ queue st.outbox := by
    intro q
    rw [(henq st.outbox topic payload next).mem_iff, List.mem_cons]
  refine ⟨fun s hs => ?_, fun q hq => ?_, h.hand_le⟩
  · rcases List.mem_append.mp hs with hs | hs
    · refine (h.sectors s hs).imp_left fun ⟨q, hq, hsec⟩ => ?_
      exact ⟨q, (hmem q).mpr (.inr hq), hsec⟩
    · rw [List.mem_singleton.mp hs]
      exact .inl ⟨_, (hmem _).mpr (.inl rfl), rfl⟩
  · rcases (hmem q).mp hq with rfl | hq
    · exact Nat.zero_le _
    · exact h.attempts_le q hq

theorem failures_le_append (s : String × Bytes) (l l' : List Publish) : failures s l ≤ failures s (l ++ l') := by
  rw [failures_append]
  exact Nat.le_add_right _ _

theorem published_mono {s : String × Bytes} {l l' : List Publish}
    (h : 0 < successes s l ∨ retryMaxAttempts.toNat ≤ failures s l) :
    0 < successes s (l ++ l') ∨ retryMaxAttempts.toNat ≤ failures s (l ++ l') := by
  rw [successes_append, failures_append]
  exact h.imp (Nat.lt_add_right _) (Nat.le_add_right_of_le ·)

theorem bump_le {bump : UInt8 → UInt8} (h : ∀ a, a ≠ 255 → bump a = a + 1) (a : UInt8) :
    (bump a).toNat ≤ a.toNat + 1 := by
  by_cases ha : a = 255
  · have := (bump a).toNat_lt
    rw [ha]
    change _ ≤ 256
    rw [← ha]
    omega
  · rw [h a ha, UInt8.toNat_add]
    exact Nat.mod_le _ _

/-- Dropping what is queued under a topic loses nothing, if all of it is a
sector that had its publishes. -/
theorem accounted_drop (h : Accounted queue enq st) {st' : Pump σ} {p : Publish} {due : List OutboxEntryHandle}
    (hpc : st.pc = .published p due) (hpc' : st'.pc = .next due) (hsettled : st'.settled = st.settled ++ [p])
    (hqueue : ∀ q, q ∈ queue st'.outbox ↔ q ∈ queue st.outbox ∧ q.topic ≠ p.entry.topic)
    (halone : ∀ q ∈ queue st.outbox, q.topic = p.entry.topic → q.sector = p.entry.sector)
    (hdone : 0 < successes p.entry.sector st'.settled ∨ retryMaxAttempts.toNat ≤ failures p.entry.sector st'.settled) :
    Accounted queue enq st' := by
  rw [hsettled] at hdone
  refine ⟨fun s hs => ?_, fun q hq => ?_, fun e he => ?_⟩
  · rw [hsettled]
    rcases h.sectors s hs with ⟨q, hq, rfl⟩ | hpub
    · by_cases ht : q.topic = p.entry.topic
      · rw [halone q hq ht]
        exact .inr hdone
      · exact .inl ⟨q, (hqueue q).mpr ⟨hq, ht⟩, rfl⟩
    · exact .inr (published_mono hpub)
  · rw [hsettled]
    exact (h.attempts_le q ((hqueue q).mp hq).1).trans (failures_le_append _ _ _)
  · rw [Pump.hand_next hpc'] at he
    rw [hsettled]
    have hle := h.hand_le e (by rw [Pump.hand_published hpc]; exact List.mem_cons_of_mem _ he)
    exact hle.trans (failures_le_append _ _ _)

/-- Settling a publish of the one sector under its topic. -/
theorem accounted_settle (hH : ActsOn H queue fun _ => True) (h : Accounted queue enq st) {p : Publish}
    {due : List OutboxEntryHandle} (hpc : st.pc = .published p due)
    (halone : ∀ q ∈ queue st.outbox, q.topic = p.entry.topic → q.sector = p.entry.sector) (nowMs nanos : UInt64) :
    Accounted queue enq (st.settle H tx p due nowMs nanos) := by
  rcases Pump.settle_cases H tx st p due nowMs nanos with ⟨ho, heq⟩ | ⟨e, ho, hmax, heq⟩ | ⟨e, next, ho, -, heq⟩
  · rw [heq]
    refine accounted_drop h hpc rfl rfl (fun q => hH.mem_ack trivial) halone (.inl ?_)
    change 0 < successes p.entry.sector (st.settled ++ [p])
    rw [successes_append, successes_self, isFailure_ok ho]
    exact Nat.succ_pos _
  · rw [heq]
    refine accounted_drop h hpc rfl rfl (fun q => hH.mem_remove trivial) halone (.inr ?_)
    change retryMaxAttempts.toNat ≤ failures p.entry.sector (st.settled ++ [p])
    rw [failures_append, failures_self, isFailure_error ho, if_pos rfl]
    have hle := h.hand_le p.entry (by rw [Pump.hand_published hpc]; exact List.mem_cons_self)
    have hnext : (p.entry.attempts + 1).toNat ≤ p.entry.attempts.toNat + 1 := by
      rw [UInt8.toNat_add]
      exact Nat.mod_le _ _
    have := UInt8.le_iff_toNat_le.mp hmax
    omega
  · rw [heq]
    obtain ⟨bump, hbump, hperm⟩ := hH.recordFailure st.outbox trivial p.entry.topic next
    refine ⟨fun s hs => ?_, fun q hq => ?_, fun e he => ?_⟩
    · rcases h.sectors s hs with ⟨q, hq, rfl⟩ | hpub
      · exact .inl ⟨q.failed bump p.entry.topic next, hperm.mem_iff.mpr (List.mem_map_of_mem hq), q.sector_failed _ _ _⟩
      · exact .inr (published_mono hpub)
    · obtain ⟨q₁, hq₁, rfl⟩ := List.mem_map.mp (hperm.mem_iff.mp hq)
      have hle := h.attempts_le q₁ hq₁
      rw [QueuedEntry.sector_failed]
      change _ ≤ failures q₁.sector (st.settled ++ [p])
      by_cases ht : q₁.topic = p.entry.topic
      · -- the attempt it is charged with is this failure
        have hfail : failures q₁.sector (st.settled ++ [p]) = failures q₁.sector st.settled + 1 := by
          rw [halone q₁ hq₁ ht, failures_append, failures_self, isFailure_error ho, if_pos rfl]
        rw [QueuedEntry.failed, if_pos ht, hfail]
        exact (bump_le hbump _).trans (Nat.succ_le_succ hle)
      · rw [QueuedEntry.failed, if_neg ht]
        exact hle.trans (failures_le_append _ _ _)
    · have hle := h.hand_le e (by rw [Pump.hand_published hpc]; exact List.mem_cons_of_mem _ he)
      exact hle.trans (failures_le_append _ _ _)

theorem accounted_act (hH : ActsOn H queue fun _ => True) (henq : Enqueues enqueue queue)
    (h : Accounted queue enq st) (a : Action) (halone : SettlesAlone queue st a) :
    Accounted queue (enq ++ enqueued [a]) (st.act H enqueue tx a) := by
  cases a with
  | enqueue topic payload next => exact accounted_enqueue henq h topic payload next
  | pump a =>
    have hnone : enqueued [.pump a] = [] := rfl
    rw [hnone, List.append_nil]
    change Accounted queue enq (st.step H tx a)
    rcases Pump.step_cases H tx st a with heq | ⟨nowMs, -, heq⟩ | ⟨entry, due, outcome, hpc, heq⟩ |
      ⟨p, due, nowMs, nanos, hpc, rfl, heq⟩ | ⟨-, heq⟩
    · rw [heq]
      exact h
    · rw [heq]
      refine h.move fun e he => ?_
      obtain ⟨q, hq, rfl⟩ := hH.mem_due trivial he
      exact h.attempts_le q hq
    · rw [heq]
      exact h.move fun e he => h.hand_le e (Pump.hand_next hpc ▸ he)
    · rw [heq]
      have hin : p ∈ st.inFlight := by
        unfold Pump.inFlight
        rw [hpc]
        exact List.mem_singleton.mpr rfl
      exact accounted_settle hH h hpc (halone p hin) nowMs nanos
    · rw [heq]
      exact h.move fun e he => (by cases he)

theorem accounted_run (hH : ActsOn H queue fun _ => True) (henq : Enqueues enqueue queue) {outbox : σ}
    (hempty : queue outbox = []) (acts : List Action)
    (halone : ∀ pre a post, acts = pre ++ a :: post →
      SettlesAlone queue ((Pump.start outbox).runActs H enqueue tx pre) a) :
    Accounted queue (enqueued acts) ((Pump.start outbox).runActs H enqueue tx acts) := by
  induction acts using List.reverseRecOn with
  | nil =>
    refine ⟨fun s hs => (by cases hs), fun q hq => ?_, fun e he => (by cases he)⟩
    change q ∈ queue outbox at hq
    rw [hempty] at hq
    cases hq
  | append_singleton acts a ih =>
    have hacts := ih fun pre a' post heq => by
      refine halone pre a' (post ++ [a]) ?_
      rw [heq, List.append_assoc, List.cons_append]
    have hlast := halone acts a [] rfl
    have henqueued : enqueued (acts ++ [a]) = enqueued acts ++ enqueued [a] := List.filterMap_append
    have hrun : (Pump.start outbox).runActs H enqueue tx (acts ++ [a]) =
        ((Pump.start outbox).runActs H enqueue tx acts).act H enqueue tx a := List.foldl_append
    rw [henqueued, hrun]
    exact accounted_act hH henq hacts a hlast

/-- **No lost sector.** In a run in which every publish is settled while only
its own sector is queued under its topic, every sector that was enqueued and
is not in the outbox has been passed to a publish that succeeded, or to
`RETRY_MAX_ATTEMPTS` publishes that failed. -/
theorem no_sector_lost (hH : ActsOn H queue fun _ => True) (henq : Enqueues enqueue queue) {outbox : σ}
    (hempty : queue outbox = []) (acts : List Action)
    (halone : ∀ pre a post, acts = pre ++ a :: post →
      SettlesAlone queue ((Pump.start outbox).runActs H enqueue tx pre) a) :
    ∀ s ∈ enqueued acts, (∀ q ∈ queue ((Pump.start outbox).runActs H enqueue tx acts).outbox, q.sector ≠ s) →
      0 < successes s ((Pump.start outbox).runActs H enqueue tx acts).publishes ∨
        retryMaxAttempts.toNat ≤ failures s ((Pump.start outbox).runActs H enqueue tx acts).publishes := by
  intro s hs hgone
  have h := accounted_run hH henq hempty acts halone
  rcases h.sectors s hs with ⟨q, hq, hsec⟩ | hpub
  · exact absurd hsec (hgone q hq)
  · exact published_mono hpub

end Loss

/-- An outbox that takes any number of sectors for a topic. -/
def pushEntry (l : List QueuedEntry) (topic : String) (payload : Bytes) (next : UInt64) : List QueuedEntry :=
  l ++ [⟨topic, payload, 0, next⟩]

theorem pushEntry_enqueues : Enqueues pushEntry id := fun _ _ _ _ => List.perm_append_singleton _ _

/-- One sector is published, and then another one comes in for the topic. -/
def oneAfterTheOther : List Action :=
  [.enqueue "dm/peer" [1] 0, .pump (.poll 0), .pump (.publish (.ok ())), .pump (.settle 0 0), .enqueue "dm/peer" [2] 0]

theorem no_sector_lost_one_after_the_other :
    (∀ pre a post, oneAfterTheOther = pre ++ a :: post →
      SettlesAlone id ((Pump.start []).runActs inMemory pushEntry true pre) a) ∧
    (0 < successes ("dm/peer", [1]) ((Pump.start []).runActs inMemory pushEntry true oneAfterTheOther).publishes ∨
      5 ≤ failures ("dm/peer", [1]) ((Pump.start []).runActs inMemory pushEntry true oneAfterTheOther).publishes) := by
  have halone : ∀ pre a post, oneAfterTheOther = pre ++ a :: post →
      SettlesAlone id ((Pump.start []).runActs inMemory pushEntry true pre) a := by
    intro pre a post heq
    match pre, heq with
    | [], heq | [_], heq | [_, _], heq | [_, _, _, _], heq =>
      cases heq
      trivial
    | [_, _, _], heq =>
      -- the sector in flight is the one that is queued
      cases heq
      change ∀ p ∈ _, ∀ q ∈ _, _ → _
      decide +kernel
    | _ :: _ :: _ :: _ :: _ :: _, heq => simp [oneAfterTheOther] at heq
  exact ⟨halone, no_sector_lost (inMemory_actsOn _) pushEntry_enqueues rfl _ halone _ (by decide) (by decide +kernel)⟩

/-- The second sector comes in while the first one is in flight: the `ack` of
the first one drops it, and it was never published. -/
theorem enqueued_during_publish :
    let acts : List Action := [.enqueue "dm/peer" [1] 0, .pump (.poll 0), .pump (.publish (.ok ())),
      .enqueue "dm/peer" [2] 0, .pump (.settle 0 0)]
    let st := (Pump.start []).runActs inMemory pushEntry true acts
    ActsOn inMemory id (fun _ => True) ∧ Enqueues pushEntry id ∧
      ¬ ∀ s ∈ enqueued acts, (∀ q ∈ st.outbox, q.sector ≠ s) →
        0 < successes s st.publishes ∨ retryMaxAttempts.toNat ≤ failures s st.publishes := by
  refine ⟨inMemory_actsOn _, pushEntry_enqueues, ?_⟩
  decide +kernel

end ZeroSdk.Retry
