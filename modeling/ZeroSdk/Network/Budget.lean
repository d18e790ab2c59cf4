/-
The retry budget. For an outbox whose entries have topics of their own and no
attempts yet, whatever the publishes return and whenever the pump polls:
every entry is published at most five times, leaves the outbox exactly with
a success or its fifth failure, and is reported as exhausted once in the
second case and never in the first (`retry_budget`).

The attempt count that decides is the one in the snapshot. The invariant
`Inv` says that it is true: what the pump has in hand is queued just so, and
an entry's attempts are its failures so far.
-/
import ZeroSdk.Network.Retry

namespace ZeroSdk.Retry

/-- How things stand with a sector: its settled failures and successes, and
the notices for its topic. -/
structure Tally where
  failures : Nat
  successes : Nat
  notices : List RetryExhausted

variable {σ : Type}

def Pump.tally (st : Pump σ) (s : String × Bytes) : Tally :=
  ⟨failures s st.settled, successes s st.settled, st.exhausted.filter fun n => n.topic = s.1⟩

/-- The notice of an entry that is given up. -/
def notice (tx : Bool) (topic : String) : List RetryExhausted := if tx then [⟨topic, retryMaxAttempts⟩] else []

/-- Delivered after `n` failures. -/
def Tally.delivered (n : Nat) : Tally := ⟨n, 1, []⟩

/-- Given up after five failures. -/
def Tally.abandoned (tx : Bool) (topic : String) : Tally := ⟨5, 0, notice tx topic⟩

/-- Still to be delivered, after `n` failures. -/
def Tally.waiting (n : Nat) : Tally := ⟨n, 0, []⟩

/-- From the entries `init`, with a topic each. -/
structure Inv (queue : σ → List QueuedEntry) (tx : Bool) (init : List QueuedEntry) (st : Pump σ) : Prop where
  distinct : DistinctTopics (queue st.outbox)
  origin : ∀ q ∈ queue st.outbox, ∃ q₀ ∈ init, q₀.sector = q.sector
  queued : ∀ q ∈ queue st.outbox, q.attempts.toNat < 5 ∧ st.tally q.sector = .waiting q.attempts.toNat
  gone : ∀ q₀ ∈ init, (∀ q ∈ queue st.outbox, q.topic ≠ q₀.topic) →
    (∃ n < 5, st.tally q₀.sector = .delivered n) ∨ st.tally q₀.sector = .abandoned tx q₀.topic
  hand : ∀ e ∈ st.hand, ∃ q ∈ queue st.outbox, q.handle = e
  hand_distinct : (st.hand.map (·.topic)).Nodup
  small : ∀ p ∈ st.settled, p.entry.attempts.toNat < 5

/-! ## Lists of entries with distinct topics -/

theorem DistinctTopics.eq_of_topic {l : List QueuedEntry} (h : DistinctTopics l) {q q' : QueuedEntry} (hq : q ∈ l)
    (hq' : q' ∈ l) (heq : q.topic = q'.topic) : q = q' := List.inj_on_of_nodup_map h hq hq' heq

theorem DistinctTopics.filter {l : List QueuedEntry} (h : DistinctTopics l) (f : QueuedEntry → Bool) :
    DistinctTopics (l.filter f) := h.sublist (List.filter_sublist.map _)

theorem DistinctTopics.perm {l l' : List QueuedEntry} (h : DistinctTopics l) (hp : l'.Perm l) : DistinctTopics l' :=
  (hp.map _).nodup_iff.mpr h

theorem DistinctTopics.failed {l : List QueuedEntry} (h : DistinctTopics l) (bump : UInt8 → UInt8) (topic : String)
    (next : UInt64) : DistinctTopics (l.map (.failed bump topic next)) := by
  unfold DistinctTopics
  rw [List.map_map]
  have hmap : (fun q : QueuedEntry => q.topic) ∘ QueuedEntry.failed bump topic next = fun q => q.topic :=
    funext fun q => q.topic_failed bump topic next
  rw [hmap]
  exact h

/-! ## Tallies -/

section Settle
variable {st : Pump σ} {p : Publish} {l : List RetryExhausted}

/-- The pump after settling the publish `p`, with the notices `l` sent. -/
def Pump.after (st : Pump σ) (p : Publish) (due : List OutboxEntryHandle) (l : List RetryExhausted) (outbox : σ) : Pump σ :=
  ⟨outbox, .next due, st.settled ++ [p], st.exhausted ++ l⟩

variable (hl : ∀ x ∈ l, x.topic = p.entry.topic) (due : List OutboxEntryHandle) (outbox : σ)
include hl

theorem tally_other {s : String × Bytes} (hs : s.1 ≠ p.entry.topic) :
    (st.after p due l outbox).tally s = st.tally s := by
  have hsector : s ≠ p.entry.sector := fun h => hs (congrArg Prod.fst h)
  have hnone : l.filter (fun x => x.topic = s.1) = [] := by
    rw [List.filter_eq_nil_iff]
    intro x hx
    rw [hl x hx, decide_eq_true_iff]
    exact hs.symm
  unfold Pump.tally Pump.after
  rw [failures_append, successes_append, failures_other hsector, successes_other hsector, List.filter_append, hnone,
    List.append_nil]
  rfl

theorem tally_settled {n : Nat} (hwait : st.tally p.entry.sector = .waiting n) :
    (st.after p due l outbox).tally p.entry.sector =
      ⟨if p.isFailure then n + 1 else n, if p.isFailure then 0 else 1, l⟩ := by
  obtain ⟨hf, hs, hx⟩ := Tally.mk.inj hwait
  have hall : l.filter (fun x => x.topic = p.entry.sector.1) = l := by
    rw [List.filter_eq_self]
    intro x hmem
    exact decide_eq_true (hl x hmem)
  unfold Pump.tally Pump.after
  rw [failures_append, successes_append, failures_self, successes_self, hf, hs, List.filter_append, hx, hall]
  cases p.isFailure <;> rfl

end Settle

theorem topic_of_mem_notice {tx : Bool} {topic : String} {x : RetryExhausted} (hx : x ∈ notice tx topic) :
    x.topic = topic := by
  unfold notice at hx
  split at hx
  · rw [List.mem_singleton.mp hx]
  · cases hx

/-- Below the budget the attempt count does not overflow. -/
theorem toNat_succ {a : UInt8} (h : a.toNat < 5) : (a + 1).toNat = a.toNat + 1 := by
  rw [UInt8.toNat_add]
  change (a.toNat + 1) % 256 = _
  omega

/-! ## The invariant -/

section Step
variable {queue : σ → List QueuedEntry} {tx : Bool} {init : List QueuedEntry} {st : Pump σ} {p : Publish}
  {due : List OutboxEntryHandle}

/-- The entry in flight is queued, with the attempts of the snapshot. -/
theorem Inv.in_flight (h : Inv queue tx init st) (hpc : st.pc = .published p due) :
    ∃ q ∈ queue st.outbox, q.sector = p.entry.sector ∧ q.attempts = p.entry.attempts ∧
      p.entry.attempts.toNat < 5 ∧ st.tally p.entry.sector = .waiting p.entry.attempts.toNat := by
  obtain ⟨q, hq, hhandle⟩ := h.hand p.entry (by rw [Pump.hand_published hpc]; exact List.mem_cons_self)
  obtain ⟨hlt, hwait⟩ := h.queued q hq
  rw [← hhandle]
  exact ⟨q, hq, rfl, rfl, hlt, hwait⟩

theorem Inv.sector_of_topic (h : Inv queue tx init st) (hinit : DistinctTopics init) {q₀ : QueuedEntry}
    (hq₀ : q₀ ∈ init) {q : QueuedEntry} (hq : q ∈ queue st.outbox) (ht : q.topic = q₀.topic) : q.sector = q₀.sector := by
  obtain ⟨q₁, hq₁, hsec⟩ := h.origin q hq
  have hq₁₀ : q₁ = q₀ := hinit.eq_of_topic hq₁ hq₀ ((congrArg Prod.fst hsec).trans ht)
  rw [← hsec, hq₁₀]

/-- What settling a publish must do to keep the invariant: nothing changes
under other topics, and its own entry either is gone and accounted for, or
waits with one more failure. -/
theorem Inv.settled (h : Inv queue tx init st) (hinit : DistinctTopics init) (hpc : st.pc = .published p due)
    {l : List RetryExhausted} (hl : ∀ x ∈ l, x.topic = p.entry.topic) {outbox : σ}
    (hdistinct : DistinctTopics (queue outbox))
    (hoff : ∀ q : QueuedEntry, q.topic ≠ p.entry.topic → (q ∈ queue outbox ↔ q ∈ queue st.outbox))
    (hon : ((∀ q ∈ queue outbox, q.topic ≠ p.entry.topic) ∧
        ((∃ n < 5, (st.after p due l outbox).tally p.entry.sector = .delivered n) ∨
          (st.after p due l outbox).tally p.entry.sector = .abandoned tx p.entry.topic)) ∨
      ∃ q ∈ queue outbox, q.sector = p.entry.sector ∧ q.attempts.toNat < 5 ∧
        (st.after p due l outbox).tally q.sector = .waiting q.attempts.toNat) :
    Inv queue tx init (st.after p due l outbox) := by
  obtain ⟨qp, hqp, hsector, -, hlt, -⟩ := h.in_flight hpc
  have hother : ∀ s : String × Bytes, s.1 ≠ p.entry.topic → (st.after p due l outbox).tally s = st.tally s :=
    fun s hs => tally_other hl due outbox hs
  have hdist := h.hand_distinct
  rw [Pump.hand_published hpc, List.map_cons, List.nodup_cons] at hdist
  -- an entry under the topic is the one that waits
  have hsame : ∀ q ∈ queue outbox, q.topic = p.entry.topic → q.sector = p.entry.sector ∧ q.attempts.toNat < 5 ∧
      (st.after p due l outbox).tally q.sector = .waiting q.attempts.toNat := by
    intro q hq hqt
    rcases hon with ⟨hgone, -⟩ | ⟨q₁, hq₁, hsec₁, hrest⟩
    · exact absurd hqt (hgone q hq)
    · have ht₁ : q₁.topic = p.entry.topic := congrArg Prod.fst hsec₁
      rw [hdistinct.eq_of_topic hq hq₁ (hqt.trans ht₁.symm)]
      exact ⟨hsec₁, hrest⟩
  refine ⟨hdistinct, fun q hq => ?_, fun q hq => ?_, fun q₀ hq₀ hgone => ?_, fun e he => ?_, hdist.2, fun p' hp' => ?_⟩
  · by_cases hqt : q.topic = p.entry.topic
    · rw [(hsame q hq hqt).1, ← hsector]
      exact h.origin qp hqp
    · exact h.origin q ((hoff q hqt).mp hq)
  · by_cases hqt : q.topic = p.entry.topic
    · exact (hsame q hq hqt).2
    · rw [hother q.sector hqt]
      exact h.queued q ((hoff q hqt).mp hq)
  · by_cases hqt : q₀.topic = p.entry.topic
    · have hsec₀ : q₀.sector = p.entry.sector := by
        rw [← hsector]
        exact (h.sector_of_topic hinit hq₀ hqp ((congrArg Prod.fst hsector).trans hqt.symm)).symm
      rcases hon with ⟨-, hdone⟩ | ⟨q, hq, hsec, -⟩
      · rw [hsec₀, hqt]
        exact hdone
      · exact absurd (congrArg Prod.fst (hsec.trans hsec₀.symm)) (hgone q hq)
    · rw [hother q₀.sector hqt]
      refine h.gone q₀ hq₀ fun q hq heq => ?_
      exact hgone q ((hoff q (heq ▸ hqt)).mpr hq) heq
  · change e ∈ due at he
    obtain ⟨q, hq, rfl⟩ := h.hand e (by rw [Pump.hand_published hpc]; exact List.mem_cons_of_mem _ he)
    have hne : q.topic ≠ p.entry.topic := fun heq => hdist.1 (heq ▸ List.mem_map_of_mem he)
    exact ⟨q, (hoff q hne).mpr hq, rfl⟩
  · change p' ∈ st.settled ++ [p] at hp'
    rw [List.mem_append, List.mem_singleton] at hp'
    rcases hp' with hp' | rfl
    · exact h.small p' hp'
    · exact hlt

theorem Inv.dropped (h : Inv queue tx init st) (hinit : DistinctTopics init) (hpc : st.pc = .published p due)
    {l : List RetryExhausted} (hl : ∀ x ∈ l, x.topic = p.entry.topic) {outbox : σ}
    (hperm : (queue outbox).Perm ((queue st.outbox).filter fun q => q.topic ≠ p.entry.topic))
    (hdone : (∃ n < 5, (st.after p due l outbox).tally p.entry.sector = .delivered n) ∨
      (st.after p due l outbox).tally p.entry.sector = .abandoned tx p.entry.topic) :
    Inv queue tx init (st.after p due l outbox) := by
  have hmem : ∀ q, q ∈ queue outbox ↔ q ∈ queue st.outbox ∧ q.topic ≠ p.entry.topic := by
    intro q
    rw [hperm.mem_iff, List.mem_filter, decide_eq_true_iff]
  refine h.settled hinit hpc hl ((h.distinct.filter _).perm hperm) (fun q hne => ?_) (.inl ⟨fun q hq => ?_, hdone⟩)
  · rw [hmem]
    exact and_iff_left hne
  · exact ((hmem q).mp hq).2

theorem Inv.charged (h : Inv queue tx init st) (hinit : DistinctTopics init) (hpc : st.pc = .published p due)
    (hfail : p.isFailure = true) (hlt : p.entry.attempts.toNat + 1 < 5) {outbox : σ} {bump : UInt8 → UInt8}
    (hbump : ∀ a, a ≠ 255 → bump a = a + 1) {next : UInt64}
    (hperm : (queue outbox).Perm ((queue st.outbox).map (.failed bump p.entry.topic next))) :
    Inv queue tx init (st.after p due [] outbox) := by
  obtain ⟨q, hq, hsector, hattempts, hlt₀, hwait⟩ := h.in_flight hpc
  have hnil : ∀ x ∈ ([] : List RetryExhausted), x.topic = p.entry.topic := fun _ hx => by cases hx
  refine h.settled hinit hpc hnil ((h.distinct.failed bump _ _).perm hperm) (fun q' hne => ?_)
    (.inr ⟨q.failed bump p.entry.topic next, ?_, ?_, ?_⟩)
  · rw [hperm.mem_iff, List.mem_map]
    constructor
    · intro ⟨q₁, hq₁, hfailed⟩
      have ht : q₁.topic ≠ p.entry.topic := by
        rw [← q₁.topic_failed bump p.entry.topic next, hfailed]
        exact hne
      rw [QueuedEntry.failed, if_neg ht] at hfailed
      exact hfailed ▸ hq₁
    · intro hq'
      exact ⟨q', hq', if_neg hne⟩
  · exact hperm.mem_iff.mpr (List.mem_map_of_mem hq)
  · rw [QueuedEntry.sector_failed, hsector]
  · have hne : p.entry.attempts ≠ 255 := by
      intro h255
      rw [h255] at hlt₀
      exact absurd hlt₀ (by decide)
    have htopic : q.topic = p.entry.topic := congrArg Prod.fst hsector
    have hfailed : (q.failed bump p.entry.topic next).attempts = p.entry.attempts + 1 := by
      rw [QueuedEntry.failed, if_pos htopic, ← hbump _ hne, ← hattempts]
    rw [hfailed, toNat_succ hlt₀, QueuedEntry.sector_failed, hsector]
    refine ⟨hlt, (tally_settled hnil due outbox hwait).trans ?_⟩
    rw [hfail]
    rfl

theorem Inv.settle {H : OutboxHandle σ} (hH : Documented H queue) (hinit : DistinctTopics init)
    (h : Inv queue tx init st) (hpc : st.pc = .published p due) (nowMs nanos : UInt64) :
    Inv queue tx init (st.settle H tx p due nowMs nanos) := by
  obtain ⟨-, -, -, -, hlt, hwait⟩ := h.in_flight hpc
  have hnil : ∀ x ∈ ([] : List RetryExhausted), x.topic = p.entry.topic := fun _ hx => by cases hx
  have hquiet : ∀ outbox, (⟨outbox, .next due, st.settled ++ [p], st.exhausted⟩ : Pump σ) = st.after p due [] outbox := by
    intro outbox
    rw [Pump.after, List.append_nil]
  rcases Pump.settle_cases H tx st p due nowMs nanos with ⟨ho, heq⟩ | ⟨e, ho, hmax, heq⟩ | ⟨e, next, ho, hmax, heq⟩
  · rw [heq, hquiet]
    refine h.dropped hinit hpc hnil (hH.ack st.outbox h.distinct _) (.inl ⟨_, hlt, ?_⟩)
    rw [tally_settled hnil _ _ hwait, isFailure_ok ho]
    rfl
  · -- this was the fifth failure
    have hfour : p.entry.attempts.toNat + 1 = 5 := by
      have : 5 ≤ (p.entry.attempts + 1).toNat := UInt8.le_iff_toNat_le.mp hmax
      rw [toNat_succ hlt] at this
      omega
    have hfive : p.entry.attempts + 1 = retryMaxAttempts := UInt8.toNat_inj.mp ((toNat_succ hlt).trans hfour)
    have hstate : st.settle H tx p due nowMs nanos =
        st.after p due (notice tx p.entry.topic) (H.remove st.outbox p.entry.topic) := by
      rw [heq, Pump.after, hfive]
      unfold notice
      cases tx
      · rw [if_neg Bool.false_ne_true, if_neg Bool.false_ne_true, List.append_nil]
      · rfl
    rw [hstate]
    refine h.dropped hinit hpc (fun _ => topic_of_mem_notice) (hH.remove st.outbox h.distinct _) (.inr ?_)
    rw [tally_settled (fun _ => topic_of_mem_notice) _ _ hwait, isFailure_error ho, hfour]
    rfl
  · obtain ⟨bump, hbump, hperm⟩ := hH.recordFailure st.outbox h.distinct p.entry.topic next
    have hlt' : (p.entry.attempts + 1).toNat < 5 := UInt8.lt_iff_toNat_lt.mp hmax
    rw [toNat_succ hlt] at hlt'
    rw [heq, hquiet]
    exact h.charged hinit hpc (isFailure_error ho) hlt' hbump hperm

theorem Inv.move (h : Inv queue tx init st) {pc : Pc}
    (hhand : ∀ e ∈ ({ st with pc } : Pump σ).hand, ∃ q ∈ queue st.outbox, q.handle = e)
    (hdistinct : (({ st with pc } : Pump σ).hand.map (·.topic)).Nodup) : Inv queue tx init { st with pc } :=
  ⟨h.distinct, h.origin, h.queued, h.gone, hhand, hdistinct, h.small⟩

theorem Inv.step {H : OutboxHandle σ} (hH : Documented H queue) (hinit : DistinctTopics init)
    (h : Inv queue tx init st) (a : PumpStep) : Inv queue tx init (st.step H tx a) := by
  rcases Pump.step_cases H tx st a with heq | ⟨nowMs, -, heq⟩ | ⟨entry, due, outcome, hpc, heq⟩ |
    ⟨p, due, nowMs, nanos, hpc, -, heq⟩ | ⟨-, heq⟩
  · rw [heq]
    exact h
  · rw [heq]
    refine h.move (fun e he => hH.mem_due h.distinct he) ?_
    have hperm := (hH.due st.outbox h.distinct nowMs).map (·.topic)
    rw [List.map_map] at hperm
    exact hperm.nodup_iff.mpr (h.distinct.filter _)
  · rw [heq]
    have hhand : st.hand = entry :: due := Pump.hand_next hpc
    have hdist := h.hand_distinct
    rw [hhand] at hdist
    exact h.move (fun e he => h.hand e (hhand ▸ he)) hdist
  · rw [heq]
    exact h.settle hH hinit hpc nowMs nanos
  · rw [heq]
    exact h.move (fun e he => by cases he) .nil

end Step

theorem Inv.start {queue : σ → List QueuedEntry} (tx : Bool) {outbox : σ} (hdistinct : DistinctTopics (queue outbox))
    (hfresh : ∀ q ∈ queue outbox, q.attempts = 0) : Inv queue tx (queue outbox) (.start outbox) := by
  refine ⟨hdistinct, fun q hq => ⟨q, hq, rfl⟩, fun q hq => ?_, fun q₀ hq₀ hgone => absurd rfl (hgone q₀ hq₀),
    fun e he => (by cases he), .nil, fun p hp => (by cases hp)⟩
  rw [hfresh q hq]
  exact ⟨by decide, rfl⟩

theorem Inv.run {H : OutboxHandle σ} {queue : σ → List QueuedEntry} (hH : Documented H queue) {tx : Bool}
    {init : List QueuedEntry} (hinit : DistinctTopics init) {st : Pump σ} (h : Inv queue tx init st)
    (steps : List PumpStep) : Inv queue tx init (st.run H tx steps) := by
  induction steps generalizing st with
  | nil => exact h
  | cons a steps ih => exact ih (h.step hH hinit a)

/-! ## The budget -/

/-- An entry's account in a state of the pump. -/
structure WithinBudget (queue : σ → List QueuedEntry) (tx : Bool) (st : Pump σ) (q₀ : QueuedEntry) : Prop where
  /-- It was published at most five times. -/
  published_le : st.publishes.countP (fun p => p.entry.sector = q₀.sector) ≤ retryMaxAttempts.toNat
  /-- While its publish is not settled, it is queued. -/
  queued_in_flight : (∃ p ∈ st.inFlight, p.entry.sector = q₀.sector) → ∃ q ∈ queue st.outbox, q.sector = q₀.sector
  /-- Else it is gone exactly if a publish of it succeeded or the fifth failed. -/
  gone_iff : (∀ p ∈ st.inFlight, p.entry.sector ≠ q₀.sector) →
    ((∀ q ∈ queue st.outbox, q.sector ≠ q₀.sector) ↔
      0 < successes q₀.sector st.publishes ∨ failures q₀.sector st.publishes = retryMaxAttempts.toNat)
  /-- It is reported once if the fifth failed, and only then. -/
  notices_eq : (∀ p ∈ st.inFlight, p.entry.sector ≠ q₀.sector) →
    st.exhausted.filter (fun n => n.topic = q₀.topic) =
      if failures q₀.sector st.publishes = retryMaxAttempts.toNat then notice tx q₀.topic else []
  /-- It is never reported once it is delivered. -/
  delivered_unreported : 0 < successes q₀.sector st.publishes → st.exhausted.filter (fun n => n.topic = q₀.topic) = []

section Budget
variable {queue : σ → List QueuedEntry} {tx : Bool} {init : List QueuedEntry} {st : Pump σ} {q₀ : QueuedEntry}

theorem length_inFlight_le (st : Pump σ) : st.inFlight.length ≤ 1 := by
  unfold Pump.inFlight
  split
  · exact le_refl _
  · exact Nat.zero_le _

theorem entry_mem_hand {p : Publish} (h : p ∈ st.inFlight) : p.entry ∈ st.hand := by
  unfold Pump.inFlight at h
  unfold Pump.hand
  split at h
  · next hpc =>
    rw [hpc, List.mem_singleton.mp h]
    exact List.mem_cons_self
  · cases h

theorem publishes_eq (h : ∀ p ∈ st.inFlight, p.entry.sector ≠ q₀.sector) :
    failures q₀.sector st.publishes = (st.tally q₀.sector).failures ∧
      successes q₀.sector st.publishes = (st.tally q₀.sector).successes := by
  have hzero : st.inFlight.countP (fun p => p.entry.sector = q₀.sector) = 0 := by
    rw [List.countP_eq_zero]
    intro p hp
    simpa using h p hp
  rw [countP_sector] at hzero
  unfold Pump.publishes
  rw [failures_append, successes_append]
  exact ⟨by change _ = failures _ _; omega, by change _ = successes _ _; omega⟩

/-- An entry that waits has had fewer than five failures and no success. -/
theorem Inv.withinBudget_of_queued (h : Inv queue tx init st) {q : QueuedEntry} (hq : q ∈ queue st.outbox)
    (hsec : q.sector = q₀.sector) : WithinBudget queue tx st q₀ := by
  obtain ⟨hlt, htally⟩ := h.queued q hq
  rw [hsec] at htally
  obtain ⟨hf, hs, hx⟩ := Tally.mk.inj htally
  refine ⟨?_, fun _ => ⟨q, hq, hsec⟩, fun hnot => ?_, fun hnot => ?_, fun _ => hx⟩
  · have hin : st.inFlight.countP (fun p => p.entry.sector = q₀.sector) ≤ 1 :=
      List.countP_le_length.trans (length_inFlight_le st)
    unfold Pump.publishes
    rw [List.countP_append, countP_sector, hf, hs]
    change _ ≤ 5
    omega
  · obtain ⟨hfail, hsucc⟩ := publishes_eq hnot
    rw [hfail, hsucc, htally]
    refine ⟨fun hgone => absurd hsec (hgone q hq), fun hdone => ?_⟩
    change 0 < 0 ∨ q.attempts.toNat = 5 at hdone
    omega
  · rw [(publishes_eq hnot).1, htally, if_neg]
    · exact hx
    · change ¬ q.attempts.toNat = 5
      omega

/-- An entry that is gone is not in flight, and its tally is final. -/
theorem Inv.withinBudget_of_gone (h : Inv queue tx init st) (hq₀ : q₀ ∈ init)
    (hgone : ∀ q ∈ queue st.outbox, q.topic ≠ q₀.topic) : WithinBudget queue tx st q₀ := by
  have hsectors : ∀ q ∈ queue st.outbox, q.sector ≠ q₀.sector := fun q hq hs => hgone q hq (congrArg Prod.fst hs)
  have hnot : ∀ p ∈ st.inFlight, p.entry.sector ≠ q₀.sector := by
    intro p hp hsec
    obtain ⟨q, hq, hhandle⟩ := h.hand _ (entry_mem_hand hp)
    refine hsectors q hq ?_
    rw [← hsec, ← hhandle]
    rfl
  obtain ⟨hfail, hsucc⟩ := publishes_eq hnot
  have hcount := countP_sector q₀.sector st.publishes
  rw [hfail, hsucc] at hcount
  rcases h.gone q₀ hq₀ hgone with ⟨n, hn, htally⟩ | htally
  · obtain ⟨-, -, hx⟩ := Tally.mk.inj htally
    rw [htally] at hfail hsucc hcount
    refine ⟨?_, fun ⟨p, hp, hsec⟩ => absurd hsec (hnot p hp), fun _ => ?_, fun _ => ?_, fun _ => hx⟩
    · rw [hcount]
      exact hn
    · rw [hsucc]
      exact ⟨fun _ => .inl Nat.one_pos, fun _ => hsectors⟩
    · rw [hfail, if_neg]
      · exact hx
      · change ¬ n = 5
        omega
  · obtain ⟨-, -, hx⟩ := Tally.mk.inj htally
    rw [htally] at hfail hsucc hcount
    refine ⟨?_, fun ⟨p, hp, hsec⟩ => absurd hsec (hnot p hp), fun _ => ?_, fun _ => ?_, fun hpos => ?_⟩
    · rw [hcount]
      exact le_refl 5
    · rw [hfail]
      exact ⟨fun _ => .inr rfl, fun _ => hsectors⟩
    · rw [hfail]
      exact hx.trans (if_pos rfl).symm
    · rw [hsucc] at hpos
      exact absurd hpos (lt_irrefl 0)

theorem Inv.withinBudget (h : Inv queue tx init st) (hinit : DistinctTopics init) (hq₀ : q₀ ∈ init) :
    WithinBudget queue tx st q₀ := by
  by_cases hqueued : ∃ q ∈ queue st.outbox, q.topic = q₀.topic
  · obtain ⟨q, hq, ht⟩ := hqueued
    exact h.withinBudget_of_queued hq (h.sector_of_topic hinit hq₀ hq ht)
  · exact h.withinBudget_of_gone hq₀ fun q hq ht => hqueued ⟨q, hq, ht⟩

end Budget

/-- **Retry budget.** From an outbox whose entries have distinct topics and no
attempts, after any steps of the pump: the attempt count has not overflowed
at any publish, and every entry is within its budget. -/
theorem retry_budget {H : OutboxHandle σ} {queue : σ → List QueuedEntry} (hH : Documented H queue) (tx : Bool)
    {outbox : σ} (hdistinct : DistinctTopics (queue outbox)) (hfresh : ∀ q ∈ queue outbox, q.attempts = 0)
    (steps : List PumpStep) :
    (∀ p ∈ ((Pump.start outbox).run H tx steps).publishes, p.entry.attempts.toNat + 1 < 2 ^ 8) ∧
      ∀ q₀ ∈ queue outbox, WithinBudget queue tx ((Pump.start outbox).run H tx steps) q₀ := by
  have h := (Inv.start tx hdistinct hfresh).run hH hdistinct steps
  refine ⟨fun p hp => ?_, fun q₀ hq₀ => h.withinBudget hdistinct hq₀⟩
  rcases List.mem_append.mp hp with hp | hp
  · have := h.small p hp
    omega
  · obtain ⟨q, hq, hhandle⟩ := h.hand _ (entry_mem_hand hp)
    have := (h.queued q hq).1
    rw [← hhandle]
    change q.attempts.toNat + 1 < 256
    omega

/-- A round in which the one publish fails. -/
def failingRound (nowMs : UInt64) : List PumpStep :=
  [.poll nowMs, .publish (.error (.other "simulated failure")), .settle nowMs 0, .sleep]

/-- An entry that fails every 35 s: it is gone after five rounds, and reported
once. -/
theorem retry_budget_exhausted :
    let outbox : List QueuedEntry := [⟨"topic/fail", [1], 0, 0⟩]
    let steps := (List.range 6).flatMap fun n => failingRound (UInt64.ofNat (35000 * n))
    let st := (Pump.start outbox).run inMemory true steps
    DistinctTopics outbox ∧ (∀ q ∈ outbox, q.attempts = 0) ∧ WithinBudget id true st ⟨"topic/fail", [1], 0, 0⟩ ∧
      st.outbox = [] ∧ st.exhausted = [⟨"topic/fail", 5⟩] := by
  intro outbox steps st
  have hdistinct : DistinctTopics outbox := List.nodup_singleton _
  have hfresh : ∀ q ∈ outbox, q.attempts = 0 := by decide
  exact ⟨hdistinct, hfresh, (retry_budget (inMemory_actsOn _) true hdistinct hfresh steps).2 _ List.mem_cons_self,
    by decide +kernel, by decide +kernel⟩

end ZeroSdk.Retry
