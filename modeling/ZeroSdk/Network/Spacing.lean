/-
How far apart the pump's attempts at an entry are. A failed attempt leaves the
entry in the outbox with a time before which it is not due: the time of the
failure and a delay, which doubles with every failure and is jittered down by
up to a half. So the wait is two facts apart, that the outbox keeps the time
until the entry is polled again (`Spaced.waits`), and that what the pump has
in hand was due when it polled (`Spaced.polled`).

`retry_spacing`: over every run, after the failure of an entry's attempt `n`,
counted from 0, the next one is from a poll at least `250 * 2 ^ n` ms later,
and every poll from `500 * 2 ^ n` ms later on finds it. An entry whose budget
runs out on a clock that does not go back was tried over at least 3750 ms.
-/
import ZeroSdk.Lib.Interleave
import ZeroSdk.Network.Budget

namespace ZeroSdk.Retry

/-! ## Attempts in time -/

/-- A settled publish, with the times of the poll that took its entry and of
its settling. -/
structure Attempt where
  publish : Publish
  polledAt : UInt64
  settledAt : UInt64

/-- The pump with the time of its last poll and its attempts so far. -/
structure Timed (σ : Type) where
  pump : Pump σ
  polledAt : UInt64
  attempts : List Attempt

namespace Timed
variable {σ : Type} (H : OutboxHandle σ) (tx : Bool)

def start (outbox : σ) : Timed σ := ⟨.start outbox, 0, []⟩

/-- A step of the pump, noting the time it is given. -/
def step (t : Timed σ) (a : PumpStep) : Timed σ where
  pump := t.pump.step H tx a
  polledAt :=
    match a, t.pump.pc with
    | .poll nowMs, .idle => nowMs
    | _, _ => t.polledAt
  attempts :=
    match a, t.pump.pc with
    | .settle nowMs _, .published p _ => t.attempts ++ [⟨p, t.polledAt, nowMs⟩]
    | _, _ => t.attempts

def run (t : Timed σ) (steps : List PumpStep) : Timed σ := steps.foldl (step H tx) t

theorem run_pump (t : Timed σ) (steps : List PumpStep) : (t.run H tx steps).pump = t.pump.run H tx steps := by
  induction steps generalizing t with
  | nil => rfl
  | cons a steps ih => exact ih (t.step H tx a)

end Timed

/-- The attempts at a sector. -/
def attemptsAt (s : String × Bytes) (l : List Attempt) : List Attempt := l.filter fun a => a.publish.entry.sector = s

/-- The shortest and the longest wait after an entry's attempt `n`. -/
def shortestWait (n : Nat) : Nat := 250 * 2 ^ n

def longestWait (n : Nat) : Nat := 500 * 2 ^ n

/-- The clock is not within a delay of the greatest `u64`. -/
def SaneClock (steps : List PumpStep) : Prop := ∀ nowMs nanos, .settle nowMs nanos ∈ steps → nowMs.toNat + 30000 < 2 ^ 64

/-- The waits between the attempts at a sector. -/
structure SpacedOut {σ : Type} (H : OutboxHandle σ) (t : Timed σ) (s : String × Bytes) : Prop where
  /-- An attempt that was not the last one failed, and the next one's poll was
  not sooner than it may be. -/
  not_sooner : ∀ pre a b post, attemptsAt s t.attempts = pre ++ a :: b :: post →
    a.publish.isFailure ∧ a.settledAt.toNat + shortestWait pre.length ≤ b.polledAt.toNat
  /-- After a failure within the budget every poll finds the entry from the
  time on at which it must. -/
  not_later : ∀ pre a, attemptsAt s t.attempts = pre ++ [a] → a.publish.isFailure →
    pre.length + 1 < retryMaxAttempts.toNat → ∀ nowMs : UInt64, a.settledAt.toNat + longestWait pre.length ≤ nowMs.toNat →
      ∃ e ∈ H.dueEntries t.pump.outbox nowMs, e.sector = s

/-! ## Delays -/

/-- The delays that are computed within the budget are below the cap. -/
theorem cappedDelayMs_eq {n : UInt8} (h : n.toNat + 1 < 5) : (cappedDelayMs (n + 1)).toNat = longestWait n.toNat := by
  have hn : n = 0 ∨ n = 1 ∨ n = 2 ∨ n = 3 := by
    have : n.toNat = 0 ∨ n.toNat = 1 ∨ n.toNat = 2 ∨ n.toNat = 3 := by omega
    rcases this with h | h | h | h
    · exact .inl (UInt8.toNat_inj.mp h)
    · exact .inr (.inl (UInt8.toNat_inj.mp h))
    · exact .inr (.inr (.inl (UInt8.toNat_inj.mp h)))
    · exact .inr (.inr (.inr (UInt8.toNat_inj.mp h)))
  rcases hn with rfl | rfl | rfl | rfl <;> decide

theorem next_bounds {n : UInt8} (h : n.toNat + 1 < 5) {nowMs : UInt64} (hnow : nowMs.toNat + 30000 < 2 ^ 64)
    (nanos : UInt64) :
    nowMs.toNat + shortestWait n.toNat ≤ (nowMs + computeBackoffMs (n + 1) nanos).toNat ∧
      (nowMs + computeBackoffMs (n + 1) nanos).toNat ≤ nowMs.toNat + longestWait n.toNat := by
  have hbounds := computeBackoffMs_bounds (n + 1) nanos
  have hcap : (cappedDelayMs (n + 1)).toNat ≤ 30000 := UInt64.le_iff_toNat_le.mp (cappedDelayMs_le (n + 1))
  have hsum : (nowMs + computeBackoffMs (n + 1) nanos).toNat = nowMs.toNat + (computeBackoffMs (n + 1) nanos).toNat := by
    rw [UInt64.toNat_add]
    exact Nat.mod_eq_of_lt (by omega)
  have hhalf : (cappedDelayMs (n + 1)).toNat / 2 = shortestWait n.toNat := by
    rw [cappedDelayMs_eq h]
    unfold longestWait shortestWait
    omega
  rw [cappedDelayMs_eq h] at hbounds hhalf
  omega

/-! ## The invariant -/

/-- What the times say of the queue and of the attempts so far. -/
structure Spaced {σ : Type} (queue : σ → List QueuedEntry) (t : Timed σ) : Prop where
  log : t.attempts.map (·.publish) = t.pump.settled
  /-- What the pump has in hand was due at its last poll. -/
  polled : ∀ q ∈ queue t.pump.outbox, q.handle ∈ t.pump.hand → q.nextAttemptMs ≤ t.polledAt
  /-- The queue keeps the time given at the last failure. -/
  waits : ∀ q ∈ queue t.pump.outbox, ∀ pre a, attemptsAt q.sector t.attempts = pre ++ [a] →
    a.settledAt.toNat + shortestWait pre.length ≤ q.nextAttemptMs.toNat ∧
      q.nextAttemptMs.toNat ≤ a.settledAt.toNat + longestWait pre.length
  chain : ∀ s pre a b post, attemptsAt s t.attempts = pre ++ a :: b :: post →
    a.publish.isFailure ∧ a.settledAt.toNat + shortestWait pre.length ≤ b.polledAt.toNat

section Step
variable {σ : Type} {H : OutboxHandle σ} {queue : σ → List QueuedEntry} {tx : Bool} {init : List QueuedEntry}
  {t : Timed σ} {p : Publish} {due : List OutboxEntryHandle}

theorem attemptsAt_concat_self {s : String × Bytes} {l : List Attempt} {a : Attempt} (h : a.publish.entry.sector = s) :
    attemptsAt s (l ++ [a]) = attemptsAt s l ++ [a] := by
  simp [attemptsAt, h]

theorem attemptsAt_concat_other {s : String × Bytes} {l : List Attempt} {a : Attempt} (h : a.publish.entry.sector ≠ s) :
    attemptsAt s (l ++ [a]) = attemptsAt s l := by
  simp [attemptsAt, h]

theorem Spaced.length_attemptsAt (h : Spaced queue t) (s : String × Bytes) :
    (attemptsAt s t.attempts).length = failures s t.pump.settled + successes s t.pump.settled := by
  rw [← countP_sector, ← h.log, List.countP_map, attemptsAt, ← List.countP_eq_length_filter]
  rfl

theorem Spaced.isFailure (h : Spaced queue t) {s : String × Bytes} (hs : successes s t.pump.settled = 0) :
    ∀ a ∈ attemptsAt s t.attempts, a.publish.isFailure := by
  intro a ha
  obtain ⟨hmem, hsector⟩ := List.mem_filter.mp ha
  have hp : a.publish ∈ t.pump.settled := h.log ▸ List.mem_map_of_mem hmem
  have hnot := List.countP_eq_zero.mp hs a.publish hp
  simpa [of_decide_eq_true hsector] using hnot

/-- What is queued after a publish is settled: other topics' entries as they
were, and the entry itself if it failed within its budget, with its next
time. -/
theorem queue_settle (hH : Documented H queue) {st : Pump σ} (hdistinct : DistinctTopics (queue st.outbox))
    (nowMs nanos : UInt64) {q : QueuedEntry} (hq : q ∈ queue (st.settle H tx p due nowMs nanos).outbox) :
    (q.topic ≠ p.entry.topic ∧ q ∈ queue st.outbox) ∨
      (p.isFailure ∧ p.entry.attempts + 1 < retryMaxAttempts ∧ (∃ q₀ ∈ queue st.outbox, q₀.topic = p.entry.topic ∧
        q.sector = q₀.sector) ∧ q.nextAttemptMs = nowMs + computeBackoffMs (p.entry.attempts + 1) nanos) := by
  unfold Pump.settle at hq
  split at hq
  · exact .inl (((hH.mem_ack hdistinct).mp hq).symm)
  · next e ho =>
    by_cases hmax : p.entry.attempts + 1 ≥ retryMaxAttempts
    · simp only [if_pos hmax] at hq
      exact .inl (((hH.mem_remove hdistinct).mp hq).symm)
    · simp only [if_neg hmax] at hq
      obtain ⟨bump, -, hperm⟩ := hH.recordFailure st.outbox hdistinct p.entry.topic
        (nowMs + computeBackoffMs (p.entry.attempts + 1) nanos)
      obtain ⟨q₀, hq₀, rfl⟩ := List.mem_map.mp (hperm.mem_iff.mp hq)
      by_cases ht : q₀.topic = p.entry.topic
      · refine .inr ⟨isFailure_error ho, UInt8.not_le.mp hmax, ⟨q₀, hq₀, ht, q₀.sector_failed _ _ _⟩, ?_⟩
        simp only [QueuedEntry.failed, if_pos ht]
      · simp only [QueuedEntry.failed, if_neg ht]
        exact .inl ⟨ht, hq₀⟩

theorem Spaced.settle (hH : Documented H queue) (hinv : Inv queue tx init t.pump) (h : Spaced queue t)
    (hpc : t.pump.pc = .published p due) {nowMs : UInt64} (hnow : nowMs.toNat + 30000 < 2 ^ 64) (nanos : UInt64) :
    Spaced queue ⟨t.pump.settle H tx p due nowMs nanos, t.polledAt, t.attempts ++ [⟨p, t.polledAt, nowMs⟩]⟩ := by
  obtain ⟨q₁, hq₁, hsector, hattempts, hlt, hwait⟩ := hinv.in_flight hpc
  obtain ⟨hfail, hsucc, -⟩ := Tally.mk.inj hwait
  have htopic : q₁.topic = p.entry.topic := congrArg Prod.fst hsector
  have hlength : (attemptsAt p.entry.sector t.attempts).length = p.entry.attempts.toNat := by
    rw [h.length_attemptsAt, hfail, hsucc, Nat.add_zero]
  -- the entry in flight was due at the poll
  have hdue : q₁.nextAttemptMs ≤ t.polledAt := by
    refine h.polled q₁ hq₁ ?_
    have hhandle : q₁.handle = p.entry := by
      obtain ⟨ht, hp⟩ := Prod.mk.inj hsector
      simp only [QueuedEntry.handle, ht, hp, hattempts]
    rw [hhandle, Pump.hand_published hpc]
    exact List.mem_cons_self
  have hdist := hinv.hand_distinct
  rw [Pump.hand_published hpc, List.map_cons, List.nodup_cons] at hdist
  have hfields : (t.pump.settle H tx p due nowMs nanos).settled = t.pump.settled ++ [p] ∧
      (t.pump.settle H tx p due nowMs nanos).hand = due := by
    rcases Pump.settle_cases H tx t.pump p due nowMs nanos with ⟨-, heq⟩ | ⟨_, -, -, heq⟩ | ⟨_, _, -, -, heq⟩ <;>
      rw [heq] <;> exact ⟨rfl, rfl⟩
  have hself : attemptsAt p.entry.sector (t.attempts ++ [⟨p, t.polledAt, nowMs⟩]) =
      attemptsAt p.entry.sector t.attempts ++ [⟨p, t.polledAt, nowMs⟩] := attemptsAt_concat_self rfl
  have hother : ∀ s, p.entry.sector ≠ s → attemptsAt s (t.attempts ++ [⟨p, t.polledAt, nowMs⟩]) =
      attemptsAt s t.attempts := fun s hs => attemptsAt_concat_other hs
  refine ⟨?_, fun q hq hhand => ?_, fun q hq pre a hA => ?_, fun s pre a b post hA => ?_⟩
  · rw [List.map_append, h.log, hfields.1]
    rfl
  · rw [hfields.2] at hhand
    have hne : q.topic ≠ p.entry.topic := fun heq => hdist.1 (heq ▸ List.mem_map_of_mem hhand)
    rcases queue_settle hH hinv.distinct nowMs nanos hq with ⟨-, hold⟩ | ⟨-, -, ⟨q₀, -, ht, hsec⟩, -⟩
    · exact h.polled q hold (by rw [Pump.hand_published hpc]; exact List.mem_cons_of_mem _ hhand)
    · exact absurd ((congrArg Prod.fst hsec).trans ht) hne
  · rcases queue_settle hH hinv.distinct nowMs nanos hq with ⟨hne, hold⟩ | ⟨-, hmax, ⟨q₀, hq₀, ht, hsec⟩, hnext⟩
    · rw [hother q.sector fun heq => hne (congrArg Prod.fst heq).symm] at hA
      exact h.waits q hold pre a hA
    · -- the entry itself, whose last attempt this is
      have hq₀₁ : q₀ = q₁ := hinv.distinct.eq_of_topic hq₀ hq₁ (ht.trans htopic.symm)
      have hlt' := UInt8.lt_iff_toNat_lt.mp hmax
      rw [toNat_succ hlt] at hlt'
      rw [hsec, hq₀₁, hsector, hself] at hA
      obtain ⟨rfl, heq⟩ := List.append_inj' hA rfl
      rw [← List.singleton_inj.mp heq, hnext, hlength]
      exact next_bounds hlt' hnow nanos
  · by_cases hs : p.entry.sector = s
    · subst hs
      rw [hself, List.append_cons pre a] at hA
      rcases Interleave.concat_eq_split hA with ⟨rfl, rfl⟩ | ⟨post', rfl, hold⟩
      · obtain ⟨hA, -⟩ := List.append_inj' hA rfl
        have hmem : a ∈ attemptsAt p.entry.sector t.attempts := hA ▸ List.mem_append_right _ List.mem_cons_self
        have hwait := (h.waits q₁ hq₁ pre a (hsector ▸ hA)).1
        exact ⟨h.isFailure hsucc a hmem, hwait.trans (UInt64.le_iff_toNat_le.mp hdue)⟩
      · rw [← List.append_cons] at hold
        exact h.chain _ pre a b post' hold
    · rw [hother s hs] at hA
      exact h.chain s pre a b post hA

theorem Spaced.move (h : Spaced queue t) {pc : Pc} {polledAt : UInt64}
    (hpolled : ∀ q ∈ queue t.pump.outbox, q.handle ∈ ({ t.pump with pc } : Pump σ).hand → q.nextAttemptMs ≤ polledAt) :
    Spaced queue ⟨{ t.pump with pc }, polledAt, t.attempts⟩ := ⟨h.log, hpolled, h.waits, h.chain⟩

theorem Spaced.step (hH : Documented H queue) (hinv : Inv queue tx init t.pump) (h : Spaced queue t) (a : PumpStep)
    (hclock : ∀ nowMs nanos, a = .settle nowMs nanos → nowMs.toNat + 30000 < 2 ^ 64) :
    Spaced queue (t.step H tx a) := by
  unfold Timed.step Pump.step
  cases a with
  | poll nowMs =>
    cases hpc : t.pump.pc with
    | idle =>
      refine h.move fun q hq hhand => ?_
      -- what is handed out is due, and no other entry has its topic
      obtain ⟨q', hq', hhandle⟩ := List.mem_map.mp ((hH.due t.pump.outbox hinv.distinct nowMs).mem_iff.mp hhand)
      obtain ⟨hmem, hdue⟩ := List.mem_filter.mp hq'
      have htopic : q'.topic = q.topic := congrArg OutboxEntryHandle.topic hhandle
      rw [← hinv.distinct.eq_of_topic hmem hq htopic]
      exact of_decide_eq_true hdue
    | next due => exact h
    | published p due => exact h
  | publish outcome =>
    cases hpc : t.pump.pc with
    | idle => exact h
    | next due =>
      cases due with
      | nil => exact h
      | cons entry due =>
        refine h.move fun q hq hhand => h.polled q hq ?_
        rw [Pump.hand_next hpc]
        exact hhand
    | published p due => exact h
  | settle nowMs nanos =>
    cases hpc : t.pump.pc with
    | idle => exact h
    | next due => exact h
    | published p due => exact h.settle hH hinv hpc (hclock nowMs nanos rfl) nanos
  | sleep =>
    cases hpc : t.pump.pc with
    | idle => exact h
    | next due =>
      cases due with
      | nil => exact h.move fun q hq hhand => by cases hhand
      | cons entry due => exact h
    | published p due => exact h

end Step

/-! ## Runs -/

section Run
variable {σ : Type} {H : OutboxHandle σ} {queue : σ → List QueuedEntry} {tx : Bool} {init : List QueuedEntry}
  {t : Timed σ}

theorem Spaced.start (queue : σ → List QueuedEntry) (outbox : σ) : Spaced queue (Timed.start outbox) := by
  refine ⟨rfl, fun q hq hhand => ?_, fun q hq pre a hA => ?_, fun s pre a b post hA => ?_⟩
  · cases hhand
  · exact absurd hA.symm (by simp [attemptsAt, Timed.start])
  · exact absurd hA.symm (by simp [attemptsAt, Timed.start])

theorem Spaced.run (hH : Documented H queue) (hinit : DistinctTopics init) {t : Timed σ}
    (hinv : Inv queue tx init t.pump) (h : Spaced queue t) {steps : List PumpStep} (hclock : SaneClock steps) :
    Inv queue tx init (t.run H tx steps).pump ∧ Spaced queue (t.run H tx steps) := by
  induction steps generalizing t with
  | nil => exact ⟨hinv, h⟩
  | cons a steps ih =>
    have hstep : Spaced queue (t.step H tx a) := by
      refine h.step hH hinv a fun nowMs nanos ha => ?_
      exact hclock nowMs nanos (ha ▸ List.mem_cons_self)
    exact ih (hinv.step hH hinit a) hstep fun nowMs nanos hmem => hclock nowMs nanos (List.mem_cons_of_mem _ hmem)

theorem Spaced.all_failed (h : Spaced queue t) {s : String × Bytes} {pre : List Attempt} {a : Attempt}
    (hA : attemptsAt s t.attempts = pre ++ [a]) (ha : a.publish.isFailure) :
    ∀ x ∈ attemptsAt s t.attempts, x.publish.isFailure := by
  intro x hx
  rw [hA] at hx
  rcases List.mem_append.mp hx with hx | hx
  · obtain ⟨l, l', rfl⟩ := List.append_of_mem hx
    -- another attempt came after it
    cases l' with
    | nil => exact (h.chain s l x a [] (by rw [hA]; simp)).1
    | cons y l' => exact (h.chain s l x y (l' ++ [a]) (by rw [hA]; simp)).1
  · rw [List.mem_singleton.mp hx]
    exact ha

theorem Spaced.still_queued (h : Spaced queue t) (hinv : Inv queue tx init t.pump) (hinit : DistinctTopics init)
    {q₀ : QueuedEntry} (hq₀ : q₀ ∈ init) {pre : List Attempt} {a : Attempt}
    (hA : attemptsAt q₀.sector t.attempts = pre ++ [a]) (ha : a.publish.isFailure) (hlt : pre.length + 1 < 5) :
    ∃ q ∈ queue t.pump.outbox, q.sector = q₀.sector := by
  have hsucc : successes q₀.sector t.pump.settled = 0 := by
    refine List.countP_eq_zero.mpr fun p hp hcount => ?_
    rw [← h.log] at hp
    obtain ⟨x, hx, rfl⟩ := List.mem_map.mp hp
    simp only [Bool.decide_and, Bool.and_eq_true, decide_eq_true_iff] at hcount
    have hfail := h.all_failed hA ha x (List.mem_filter.mpr ⟨hx, decide_eq_true hcount.1⟩)
    simp [hfail] at hcount
  have hfail : failures q₀.sector t.pump.settled = pre.length + 1 := by
    have hlen := h.length_attemptsAt q₀.sector
    rw [hA, List.length_append, List.length_singleton, hsucc] at hlen
    exact hlen.symm
  by_cases hqueued : ∃ q ∈ queue t.pump.outbox, q.topic = q₀.topic
  · obtain ⟨q, hq, ht⟩ := hqueued
    exact ⟨q, hq, hinv.sector_of_topic hinit hq₀ hq ht⟩
  · rcases hinv.gone q₀ hq₀ fun q hq ht => hqueued ⟨q, hq, ht⟩ with ⟨n, -, htally⟩ | htally
    · have hone : successes q₀.sector t.pump.settled = 1 := congrArg Tally.successes htally
      omega
    · have hfive : failures q₀.sector t.pump.settled = 5 := congrArg Tally.failures htally
      omega

theorem Spaced.spacedOut (hH : Documented H queue) (hinit : DistinctTopics init) (hinv : Inv queue tx init t.pump)
    (h : Spaced queue t) {q₀ : QueuedEntry} (hq₀ : q₀ ∈ init) : SpacedOut H t q₀.sector := by
  refine ⟨h.chain q₀.sector, fun pre a hA ha hlt nowMs hnow => ?_⟩
  obtain ⟨q, hq, hsector⟩ := h.still_queued hinv hinit hq₀ hA ha hlt
  have hdue : q.nextAttemptMs ≤ nowMs := by
    rw [← hsector] at hA
    exact UInt64.le_iff_toNat_le.mpr ((h.waits q hq pre a hA).2.trans hnow)
  refine ⟨q.handle, (hH.due t.pump.outbox hinv.distinct nowMs).mem_iff.mpr ?_, hsector⟩
  exact List.mem_map_of_mem (List.mem_filter.mpr ⟨hq, decide_eq_true hdue⟩)

end Run

/-- The waits add up: on a clock that does not go back, from an entry's first
failure to the poll for its attempt `n` it is at least `250 * (2 ^ n - 1)` ms. -/
def Stretched {σ : Type} (t : Timed σ) (s : String × Bytes) : Prop :=
  (∀ a ∈ attemptsAt s t.attempts, a.polledAt ≤ a.settledAt) →
    ∀ first mid last post, attemptsAt s t.attempts = first :: mid ++ last :: post →
      first.settledAt.toNat + 250 * (2 ^ (mid.length + 1) - 1) ≤ last.polledAt.toNat

theorem SpacedOut.stretched {σ : Type} {H : OutboxHandle σ} {t : Timed σ} {s : String × Bytes} (h : SpacedOut H t s) :
    Stretched t s := by
  intro hclock first mid
  induction mid using List.reverseRecOn with
  | nil =>
    intro last post hA
    exact (h.not_sooner [] first last post hA).2
  | append_singleton mid x ih =>
    intro last post hA
    have hA' : attemptsAt s t.attempts = first :: mid ++ x :: last :: post := by
      rw [hA]
      simp
    have hsofar := ih x (last :: post) hA'
    have hwait := (h.not_sooner (first :: mid) x last post hA').2
    have hx : x.polledAt.toNat ≤ x.settledAt.toNat := by
      refine UInt64.le_iff_toNat_le.mp (hclock x ?_)
      rw [hA']
      simp
    have hpow : 2 ^ (mid.length + 1 + 1) = 2 * 2 ^ (mid.length + 1) := Nat.pow_succ'
    have hpos : 0 < 2 ^ (mid.length + 1) := Nat.two_pow_pos _
    rw [List.length_append, List.length_singleton, hpow]
    unfold shortestWait at hwait
    rw [List.length_cons] at hwait
    omega

/-- **Retry spacing.** From an outbox whose entries have distinct topics and no
attempts, after any steps of the pump on a sane clock: the attempts are the
publishes that the pump settled, and those at every entry are spaced out. -/
theorem retry_spacing {σ : Type} {H : OutboxHandle σ} {queue : σ → List QueuedEntry} (hH : Documented H queue)
    (tx : Bool) {outbox : σ} (hdistinct : DistinctTopics (queue outbox)) (hfresh : ∀ q ∈ queue outbox, q.attempts = 0)
    {steps : List PumpStep} (hclock : SaneClock steps) :
    ((Timed.start outbox).run H tx steps).attempts.map (·.publish) = ((Pump.start outbox).run H tx steps).settled ∧
      ∀ q₀ ∈ queue outbox, SpacedOut H ((Timed.start outbox).run H tx steps) q₀.sector ∧
        Stretched ((Timed.start outbox).run H tx steps) q₀.sector := by
  obtain ⟨hinv, h⟩ := (Spaced.start queue outbox).run hH hdistinct (Inv.start tx hdistinct hfresh) hclock
  refine ⟨?_, fun q₀ hq₀ => ?_⟩
  · rw [h.log, Timed.run_pump]
    rfl
  · have hspaced := h.spacedOut hH hdistinct hinv hq₀
    exact ⟨hspaced, hspaced.stretched⟩

/-- A failure at 100 ms with a delay of 257 ms, a poll at 250 ms that finds
nothing, and one at 500 ms. -/
def secondAttempt : List PumpStep :=
  [.poll 0, .publish (.error .timeout), .settle 100 7, .sleep, .poll 250, .sleep, .poll 500, .publish (.ok ()),
    .settle 510 0, .sleep]

theorem retry_spacing_second_attempt :
    let outbox : List QueuedEntry := [⟨"dm/peer", [1], 0, 0⟩]
    let t := (Timed.start outbox).run inMemory true secondAttempt
    (attemptsAt ("dm/peer", [1]) t.attempts).map (fun a => (a.polledAt, a.settledAt)) = [(0, 100), (500, 510)] ∧
      SpacedOut inMemory t ("dm/peer", [1]) ∧ Stretched t ("dm/peer", [1]) := by
  intro outbox t
  have hclock : SaneClock secondAttempt := by
    intro nowMs nanos h
    simp only [secondAttempt, List.mem_cons, PumpStep.settle.injEq, reduceCtorEq, List.not_mem_nil, or_false, false_or] at h
    rcases h with ⟨rfl, -⟩ | ⟨rfl, -⟩ <;> decide
  have hdistinct : DistinctTopics outbox := List.nodup_singleton _
  have hfresh : ∀ q ∈ outbox, q.attempts = 0 := by decide
  exact ⟨by decide +kernel, (retry_spacing (inMemory_actsOn _) true hdistinct hfresh hclock).2 _ List.mem_cons_self⟩

end ZeroSdk.Retry
