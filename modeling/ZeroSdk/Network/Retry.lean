/-
The retry pump: `pump_loop` polls an outbox for what is due, publishes each
entry, acknowledges a success, reschedules a failure with a growing delay,
and abandons an entry at its fifth failure.

The pump works through a snapshot and everything it asks of the outbox is
given by topic, so the loop is modelled one call at a time (`Pump.step`):
between any two of its calls others may act. What an outbox does is known
through its trait only (`ActsOn`): `queue` are the entries it holds, in any
order.
-/
import Mathlib.Data.List.Perm.Basic
import Mathlib.Data.List.Nodup
import ZeroSdk.Lib.Bytes
import ZeroSdk.Network.Client

namespace ZeroSdk.Retry

/-! ## Policy -/

/-- `RETRY_INITIAL_DELAY_MS`. -/
def retryInitialDelayMs : UInt64 := 500

/-- `RETRY_BACKOFF_MULTIPLIER`. -/
def retryBackoffMultiplier : UInt64 := 2

/-- `RETRY_MAX_ATTEMPTS`. -/
def retryMaxAttempts : UInt8 := 5

/-- `RETRY_CAP_MS`. -/
def retryCapMs : UInt64 := 30000

/-- The number, or the greatest `u64`. -/
def saturate (n : Nat) : UInt64 := UInt64.ofNat (min n (2 ^ 64 - 1))

def saturatingMul (a b : UInt64) : UInt64 := saturate (a.toNat * b.toNat)

def saturatingPow (a : UInt64) (exp : Nat) : UInt64 := saturate (a.toNat ^ exp)

/-- The delay before the jitter. -/
def cappedDelayMs (attempts : UInt8) : UInt64 :=
  let exp := attempts.toNat - 1
  let base := saturatingMul retryInitialDelayMs (saturatingPow retryBackoffMultiplier exp)
  min base retryCapMs

/-- `compute_backoff_ms`; `nanos` is what the clock gives for the jitter. -/
def computeBackoffMs (attempts : UInt8) (nanos : UInt64) : UInt64 :=
  let half := cappedDelayMs attempts / 2
  half + nanos % max half 1

theorem cappedDelayMs_le (attempts : UInt8) : cappedDelayMs attempts ≤ retryCapMs := by
  unfold cappedDelayMs
  change (if _ ≤ retryCapMs then _ else retryCapMs) ≤ retryCapMs
  split
  · assumption
  · exact UInt64.le_refl _

/-- The jitter stays between half the delay and the delay. -/
theorem computeBackoffMs_bounds (attempts : UInt8) (nanos : UInt64) :
    (cappedDelayMs attempts).toNat / 2 ≤ (computeBackoffMs attempts nanos).toNat ∧
      (computeBackoffMs attempts nanos).toNat ≤ (cappedDelayMs attempts).toNat := by
  have hcap : (cappedDelayMs attempts).toNat ≤ 30000 := UInt64.le_iff_toNat_le.mp (cappedDelayMs_le attempts)
  have hhalf : (cappedDelayMs attempts / 2).toNat = (cappedDelayMs attempts).toNat / 2 := UInt64.toNat_div _ _
  have hmax : ∀ h : UInt64, (max h 1).toNat = max h.toNat 1 := by
    intro h
    change (if h ≤ 1 then 1 else h).toNat = _
    split
    · next hle =>
      have : h.toNat ≤ 1 := UInt64.le_iff_toNat_le.mp hle
      change 1 = _
      omega
    · next hgt =>
      have : ¬ h.toNat ≤ 1 := fun hle => hgt (UInt64.le_iff_toNat_le.mpr hle)
      omega
  have hsum : (computeBackoffMs attempts nanos).toNat =
      ((cappedDelayMs attempts).toNat / 2 + nanos.toNat % max ((cappedDelayMs attempts).toNat / 2) 1) % 2 ^ 64 := by
    unfold computeBackoffMs
    rw [UInt64.toNat_add, UInt64.toNat_mod, hmax, hhalf]
  have hmod := Nat.mod_lt nanos.toNat (show 0 < max ((cappedDelayMs attempts).toNat / 2) 1 by omega)
  omega

/-- `RetryExhausted`. -/
structure RetryExhausted where
  topic : String
  attempts : UInt8
  deriving DecidableEq

/-- `OutboxEntryHandle`: an entry as `due_entries` returns it. -/
structure OutboxEntryHandle where
  topic : String
  payload : Bytes
  attempts : UInt8
  deriving DecidableEq

/-- What is to be published, and where. -/
def OutboxEntryHandle.sector (e : OutboxEntryHandle) : String × Bytes := (e.topic, e.payload)

/-! ## Outboxes -/

/-- `OutboxHandle`: an outbox with states in `σ`. -/
structure OutboxHandle (σ : Type) where
  dueEntries : σ → (nowMs : UInt64) → List OutboxEntryHandle
  ack : σ → (topic : String) → σ
  recordFailure : σ → (topic : String) → (nextAttemptMs : UInt64) → σ
  remove : σ → (topic : String) → σ

/-- An entry in the outbox. -/
structure QueuedEntry where
  topic : String
  payload : Bytes
  attempts : UInt8
  nextAttemptMs : UInt64
  deriving DecidableEq

namespace QueuedEntry

def handle (q : QueuedEntry) : OutboxEntryHandle := ⟨q.topic, q.payload, q.attempts⟩

def sector (q : QueuedEntry) : String × Bytes := (q.topic, q.payload)

/-- The entry after a failed attempt. `bump` adds one to an attempt count
below 255. -/
def failed (bump : UInt8 → UInt8) (topic : String) (nextAttemptMs : UInt64) (q : QueuedEntry) : QueuedEntry :=
  if q.topic = topic then { q with attempts := bump q.attempts, nextAttemptMs } else q

theorem topic_failed (bump : UInt8 → UInt8) (topic : String) (next : UInt64) (q : QueuedEntry) :
    (q.failed bump topic next).topic = q.topic := by
  unfold failed
  split <;> rfl

theorem sector_failed (bump : UInt8 → UInt8) (topic : String) (next : UInt64) (q : QueuedEntry) :
    (q.failed bump topic next).sector = q.sector := by
  unfold failed
  split <;> rfl

end QueuedEntry

/-- On the states `on`, the outbox holds the entries `queue` and does what the
trait says: it returns every entry that is due, and to `ack`, `remove` or
record a failure of a topic is to do that to what is queued under it. -/
structure ActsOn {σ : Type} (H : OutboxHandle σ) (queue : σ → List QueuedEntry) (on : σ → Prop) : Prop where
  due : ∀ s, on s → ∀ now,
    (H.dueEntries s now).Perm (((queue s).filter fun q => q.nextAttemptMs ≤ now).map (·.handle))
  ack : ∀ s, on s → ∀ topic, (queue (H.ack s topic)).Perm ((queue s).filter fun q => q.topic ≠ topic)
  remove : ∀ s, on s → ∀ topic, (queue (H.remove s topic)).Perm ((queue s).filter fun q => q.topic ≠ topic)
  recordFailure : ∀ s, on s → ∀ topic next, ∃ bump : UInt8 → UInt8, (∀ a, a ≠ 255 → bump a = a + 1) ∧
    (queue (H.recordFailure s topic next)).Perm ((queue s).map (.failed bump topic next))

/-- No two entries share a topic. -/
def DistinctTopics (l : List QueuedEntry) : Prop := (l.map (·.topic)).Nodup

/-- The outbox behaves as its trait documents, which speaks of one entry for
a topic. -/
def Documented {σ : Type} (H : OutboxHandle σ) (queue : σ → List QueuedEntry) : Prop :=
  ActsOn H queue fun s => DistinctTopics (queue s)

/-- `InMemoryOutboxHandle`: the entries of its map, in some order. As a list
it can also hold several for a topic. -/
def inMemory : OutboxHandle (List QueuedEntry) where
  dueEntries l nowMs := (l.filter fun q => q.nextAttemptMs ≤ nowMs).map (·.handle)
  ack l topic := l.filter fun q => q.topic ≠ topic
  recordFailure l topic nextAttemptMs := l.map (.failed (· + 1) topic nextAttemptMs)
  remove l topic := l.filter fun q => q.topic ≠ topic

theorem inMemory_actsOn (on : List QueuedEntry → Prop) : ActsOn inMemory id on :=
  ⟨fun _ _ _ => .refl _, fun _ _ _ => .refl _, fun _ _ _ => .refl _,
    fun _ _ _ _ => ⟨(· + 1), fun _ _ => rfl, .refl _⟩⟩

/-! ## The pump -/

/-- A publish and what it returned. -/
structure Publish where
  entry : OutboxEntryHandle
  outcome : Except NetworkError Unit

/-- Where the pump is: at `due_entries`, at the head of the `for` with the
entries left, or between a `publish` and what follows from it. -/
inductive Pc
  | idle
  | next (due : List OutboxEntryHandle)
  | published (p : Publish) (due : List OutboxEntryHandle)

/-- The outbox and the pump. `settled` are the publishes that were followed
by their `ack`, `record_failure` or `remove`; `exhausted` is what was sent
on the channel. -/
structure Pump (σ : Type) where
  outbox : σ
  pc : Pc
  settled : List Publish
  exhausted : List RetryExhausted

/-- What the pump does next, with what the world answers. -/
inductive PumpStep
  | poll (nowMs : UInt64)
  | publish (outcome : Except NetworkError Unit)
  | settle (nowMs nanos : UInt64)
  | sleep

namespace Pump
variable {σ : Type} (H : OutboxHandle σ) (tx : Bool)

/-- The pump before its first poll. -/
def start (outbox : σ) : Pump σ := ⟨outbox, .idle, [], []⟩

/-- The publish that is not settled yet. -/
def inFlight (st : Pump σ) : List Publish :=
  match st.pc with
  | .published p _ => [p]
  | _ => []

/-- Every publish so far. -/
def publishes (st : Pump σ) : List Publish := st.settled ++ st.inFlight

/-- What follows a publish; `tx` says whether there is a channel. -/
def settle (st : Pump σ) (p : Publish) (due : List OutboxEntryHandle) (nowMs nanos : UInt64) : Pump σ :=
  let nextAttempts := p.entry.attempts + 1
  let st := { st with pc := .next due, settled := st.settled ++ [p] }
  match p.outcome with
  | .ok () => { st with outbox := H.ack st.outbox p.entry.topic }
  | .error _ =>
    if nextAttempts ≥ retryMaxAttempts then
      { st with
        outbox := H.remove st.outbox p.entry.topic
        exhausted := if tx then st.exhausted ++ [⟨p.entry.topic, nextAttempts⟩] else st.exhausted }
    else
      let delay := computeBackoffMs nextAttempts nanos
      { st with outbox := H.recordFailure st.outbox p.entry.topic (nowMs + delay) }

/-- One call of `pump_loop`. A step that is not the pump's next one does
nothing. -/
def step (st : Pump σ) : PumpStep → Pump σ
  | .poll nowMs =>
    match st.pc with
    | .idle => { st with pc := .next (H.dueEntries st.outbox nowMs) }
    | _ => st
  | .publish outcome =>
    match st.pc with
    | .next (entry :: due) => { st with pc := .published ⟨entry, outcome⟩ due }
    | _ => st
  | .settle nowMs nanos =>
    match st.pc with
    | .published p due => st.settle H tx p due nowMs nanos
    | _ => st
  | .sleep =>
    match st.pc with
    | .next [] => { st with pc := .idle }
    | _ => st

def run (st : Pump σ) (steps : List PumpStep) : Pump σ := steps.foldl (step H tx) st

/-- What the pump has in hand: the entry in flight, and what is left of the
snapshot. -/
def hand (st : Pump σ) : List OutboxEntryHandle :=
  match st.pc with
  | .idle => []
  | .next due => due
  | .published p due => p.entry :: due

theorem hand_published {st : Pump σ} {p : Publish} {due : List OutboxEntryHandle} (hpc : st.pc = .published p due) :
    st.hand = p.entry :: due := by
  unfold Pump.hand
  rw [hpc]

theorem hand_next {st : Pump σ} {due : List OutboxEntryHandle} (hpc : st.pc = .next due) : st.hand = due := by
  unfold Pump.hand
  rw [hpc]

theorem step_cases (st : Pump σ) (a : PumpStep) :
    st.step H tx a = st ∨
    (∃ nowMs, st.pc = .idle ∧ st.step H tx a = { st with pc := .next (H.dueEntries st.outbox nowMs) }) ∨
    (∃ entry due outcome, st.pc = .next (entry :: due) ∧
      st.step H tx a = { st with pc := .published ⟨entry, outcome⟩ due }) ∨
    (∃ p due nowMs nanos, st.pc = .published p due ∧ a = .settle nowMs nanos ∧
      st.step H tx a = st.settle H tx p due nowMs nanos) ∨
    (st.pc = .next [] ∧ st.step H tx a = { st with pc := .idle }) := by
  unfold step
  cases a with
  | poll nowMs =>
    cases hpc : st.pc with
    | idle => exact .inr (.inl ⟨nowMs, rfl, rfl⟩)
    | next due => exact .inl rfl
    | published p due => exact .inl rfl
  | publish outcome =>
    cases hpc : st.pc with
    | idle => exact .inl rfl
    | next due =>
      cases due with
      | nil => exact .inl rfl
      | cons entry due => exact .inr (.inr (.inl ⟨entry, due, outcome, rfl, rfl⟩))
    | published p due => exact .inl rfl
  | settle nowMs nanos =>
    cases hpc : st.pc with
    | idle => exact .inl rfl
    | next due => exact .inl rfl
    | published p due => exact .inr (.inr (.inr (.inl ⟨p, due, nowMs, nanos, rfl, rfl, rfl⟩)))
  | sleep =>
    cases hpc : st.pc with
    | idle => exact .inl rfl
    | next due =>
      cases due with
      | nil => exact .inr (.inr (.inr (.inr ⟨rfl, rfl⟩)))
      | cons entry due => exact .inl rfl
    | published p due => exact .inl rfl

/-- What follows a publish: an `ack`, a `remove` with its notice, or a
`record_failure`. -/
theorem settle_cases (st : Pump σ) (p : Publish) (due : List OutboxEntryHandle) (nowMs nanos : UInt64) :
    (p.outcome = .ok () ∧ st.settle H tx p due nowMs nanos =
      ⟨H.ack st.outbox p.entry.topic, .next due, st.settled ++ [p], st.exhausted⟩) ∨
    (∃ e, p.outcome = .error e ∧ retryMaxAttempts ≤ p.entry.attempts + 1 ∧ st.settle H tx p due nowMs nanos =
      ⟨H.remove st.outbox p.entry.topic, .next due, st.settled ++ [p],
        if tx then st.exhausted ++ [⟨p.entry.topic, p.entry.attempts + 1⟩] else st.exhausted⟩) ∨
    (∃ e next, p.outcome = .error e ∧ p.entry.attempts + 1 < retryMaxAttempts ∧ st.settle H tx p due nowMs nanos =
      ⟨H.recordFailure st.outbox p.entry.topic next, .next due, st.settled ++ [p], st.exhausted⟩) := by
  unfold settle
  cases ho : p.outcome with
  | ok u => exact .inl ⟨rfl, rfl⟩
  | error e =>
    by_cases hmax : p.entry.attempts + 1 ≥ retryMaxAttempts
    · exact .inr (.inl ⟨e, rfl, hmax, if_pos hmax⟩)
    · exact .inr (.inr ⟨e, _, rfl, UInt8.not_le.mp hmax, if_neg hmax⟩)

end Pump

/-! ## Counting publishes -/

def Publish.isFailure (p : Publish) : Bool :=
  match p.outcome with
  | .ok _ => false
  | .error _ => true

/-- How many publishes of the sector failed. -/
def failures (s : String × Bytes) (l : List Publish) : Nat := l.countP fun p => p.entry.sector = s ∧ p.isFailure

/-- How many publishes of the sector succeeded. -/
def successes (s : String × Bytes) (l : List Publish) : Nat := l.countP fun p => p.entry.sector = s ∧ !p.isFailure

theorem failures_append (s : String × Bytes) (l l' : List Publish) :
    failures s (l ++ l') = failures s l + failures s l' := List.countP_append

theorem successes_append (s : String × Bytes) (l l' : List Publish) :
    successes s (l ++ l') = successes s l + successes s l' := List.countP_append

theorem countP_sector (s : String × Bytes) (l : List Publish) :
    l.countP (fun p => p.entry.sector = s) = failures s l + successes s l := by
  induction l with
  | nil => rfl
  | cons p l ih =>
    unfold failures successes at ih ⊢
    simp only [List.countP_cons, ih]
    cases hf : p.isFailure <;> by_cases hs : p.entry.sector = s <;> simp [hs] <;> omega

theorem failures_other {s : String × Bytes} {p : Publish} (h : s ≠ p.entry.sector) : failures s [p] = 0 := by
  simp [failures, h.symm]

theorem successes_other {s : String × Bytes} {p : Publish} (h : s ≠ p.entry.sector) : successes s [p] = 0 := by
  simp [successes, h.symm]

theorem failures_self (p : Publish) : failures p.entry.sector [p] = if p.isFailure then 1 else 0 := by
  simp [failures]

theorem successes_self (p : Publish) : successes p.entry.sector [p] = if p.isFailure then 0 else 1 := by
  cases h : p.isFailure <;> simp [successes, h]

theorem isFailure_ok {p : Publish} (h : p.outcome = .ok ()) : p.isFailure = false := by
  unfold Publish.isFailure
  rw [h]

theorem isFailure_error {p : Publish} {e : NetworkError} (h : p.outcome = .error e) : p.isFailure = true := by
  unfold Publish.isFailure
  rw [h]

/-! ## What the outbox holds after a call -/

section ActsOn
variable {σ : Type} {H : OutboxHandle σ} {queue : σ → List QueuedEntry} {on : σ → Prop} {s : σ}

theorem ActsOn.mem_due (h : ActsOn H queue on) (hs : on s) {now : UInt64} {e : OutboxEntryHandle}
    (he : e ∈ H.dueEntries s now) : ∃ q ∈ queue s, q.handle = e := by
  rw [(h.due s hs now).mem_iff, List.mem_map] at he
  obtain ⟨q, hq, rfl⟩ := he
  exact ⟨q, List.mem_of_mem_filter hq, rfl⟩

theorem ActsOn.mem_ack (h : ActsOn H queue on) (hs : on s) {topic : String} {q : QueuedEntry} :
    q ∈ queue (H.ack s topic) ↔ q ∈ queue s ∧ q.topic ≠ topic := by
  rw [(h.ack s hs topic).mem_iff, List.mem_filter, decide_eq_true_iff]

theorem ActsOn.mem_remove (h : ActsOn H queue on) (hs : on s) {topic : String} {q : QueuedEntry} :
    q ∈ queue (H.remove s topic) ↔ q ∈ queue s ∧ q.topic ≠ topic := by
  rw [(h.remove s hs topic).mem_iff, List.mem_filter, decide_eq_true_iff]

end ActsOn

end ZeroSdk.Retry
