/-
The receive loop of `DmReceiver`: each sector of the subscription is hashed
to an id, skipped if the dedupe cache has seen the id, and otherwise marked
and handed to `process_inbound_dm`. The loop ends with the stream, and at
the first error item.

The cache is asked and marked only here, so it is a window on what was
handed over (`receiveLoop_window`), and `dedupe_window` says which sectors
are skipped. The subscription itself goes on after a lag; the loop does not,
and `survives_lag_iff` says what that loses.
-/
import Mathlib.Data.Set.Function
import ZeroSdk.Dm.Monotone
import ZeroSdk.Network.Client
import ZeroSdk.Storage.Dedupe
import ZeroSdk.Storage.Faults

namespace ZeroSdk.Dm

/-- A sector as the loop meets it: its bytes, what others have done to the
database since the last one, the clock readings and the outbox id drawn
while it is processed, and the failures of RocksDB during that. -/
structure Delivery where
  sectorBytes : Bytes
  others : ZeroDb → ZeroDb
  nowMs : UInt64
  receiptMs : UInt64
  sectorId : SectorId
  enqueuedMs : UInt64
  faults : Faults

/-- A sector handed to `process_inbound_dm`: the database it was run on, its
result, and the database after it. -/
structure Handed where
  delivery : Delivery
  before : ZeroDb
  result : Except DmError MessageId
  after : ZeroDb

/-- What became of a sector. -/
inductive Event
  | skipped (d : Delivery)
  | handed (h : Handed)

def Event.handed? : Event → Option Handed
  | .skipped _ => none
  | .handed h => some h

/-- The database and the dedupe cache. -/
structure LoopState where
  db : ZeroDb
  dedupe : DedupeCache

section Loop
variable (blake3 : Bytes → Arr 32) (r : DmReceiver)

/-- The first 16 bytes of the sector's hash. -/
def dedupeId (sectorBytes : Bytes) : SectorId :=
  ⟨⟨(blake3 sectorBytes).val.take 16, by simp [(blake3 sectorBytes).property]⟩⟩

/-- `process_inbound_dm` on the database `db`. -/
def Delivery.process (d : Delivery) (db : ZeroDb) : Handed :=
  let result := (r.processInboundDm blake3 d.sectorBytes d.nowMs d.receiptMs d.sectorId d.enqueuedMs).run
    ZeroDb.handleFaulty (db, d.faults)
  ⟨d, db, result.1, result.2.1⟩

/-- One sector. -/
def receive (st : LoopState) (d : Delivery) : LoopState × Event :=
  let db := d.others st.db
  let id := dedupeId blake3 d.sectorBytes
  if st.dedupe.seen id then
    (⟨db, st.dedupe⟩, .skipped d)
  else
    -- marked before it is processed, and the result is dropped
    let dedupe := st.dedupe.mark id
    let h := d.process blake3 r db
    (⟨h.after, dedupe⟩, .handed h)

/-- The loop of `start_receive_loop`, with what became of each sector. -/
def receiveLoop (st : LoopState) : List (Except NetworkError Delivery) → LoopState × List Event
  | [] => (st, [])
  | .error _ :: _ => (st, [])
  | .ok d :: items =>
    let (st, event) := receive blake3 r st d
    let (st, events) := receiveLoop st items
    (st, event :: events)

end Loop

/-- The sectors handed over, in order. -/
def handedOver (events : List Event) : List Handed := events.filterMap Event.handed?

def Handed.sector (h : Handed) : Bytes := h.delivery.sectorBytes

variable {blake3 : Bytes → Arr 32} {r : DmReceiver} {st : LoopState}

/-! ## Runs of the loop -/

theorem receiveLoop_cons (d : Delivery) (items : List (Except NetworkError Delivery)) :
    receiveLoop blake3 r st (.ok d :: items) =
      ((receiveLoop blake3 r (receive blake3 r st d).1 items).1,
        (receive blake3 r st d).2 :: (receiveLoop blake3 r (receive blake3 r st d).1 items).2) := rfl

theorem receiveLoop_append (pre : List Delivery) (items : List (Except NetworkError Delivery)) :
    receiveLoop blake3 r st (pre.map .ok ++ items) =
      ((receiveLoop blake3 r (receiveLoop blake3 r st (pre.map .ok)).1 items).1,
        (receiveLoop blake3 r st (pre.map .ok)).2 ++
          (receiveLoop blake3 r (receiveLoop blake3 r st (pre.map .ok)).1 items).2) := by
  induction pre generalizing st with
  | nil => rfl
  | cons d pre ih =>
    rw [List.map_cons, List.cons_append, receiveLoop_cons, ih, receiveLoop_cons]
    rfl

theorem receiveLoop_error (pre : List Delivery) (e : NetworkError) (items : List (Except NetworkError Delivery)) :
    receiveLoop blake3 r st (pre.map .ok ++ .error e :: items) = receiveLoop blake3 r st (pre.map .ok) := by
  rw [receiveLoop_append]
  simp only [receiveLoop, List.append_nil]

theorem length_events (pre : List Delivery) : (receiveLoop blake3 r st (pre.map .ok)).2.length = pre.length := by
  induction pre generalizing st with
  | nil => rfl
  | cons d pre ih => rw [List.map_cons, receiveLoop_cons, List.length_cons, ih, List.length_cons]

theorem getElem_events (pre : List Delivery) (d : Delivery) (items : List (Except NetworkError Delivery)) :
    (receiveLoop blake3 r st (pre.map .ok ++ .ok d :: items)).2[pre.length]? =
      some (receive blake3 r (receiveLoop blake3 r st (pre.map .ok)).1 d).2 := by
  rw [receiveLoop_append, List.getElem?_append_right (by rw [length_events]), length_events, Nat.sub_self,
    receiveLoop_cons]
  rfl

/-! ## The dedupe window -/

/-- The sectors handed over, in order. -/
def handedSectors (events : List Event) : List Bytes := (handedOver events).map Handed.sector

section Window
variable (blake3 r)

theorem receive_cases (st : LoopState) (d : Delivery) :
    (st.dedupe.seen (dedupeId blake3 d.sectorBytes) = true ∧
      receive blake3 r st d = (⟨d.others st.db, st.dedupe⟩, .skipped d)) ∨
    (st.dedupe.seen (dedupeId blake3 d.sectorBytes) = false ∧
      receive blake3 r st d =
        (⟨(d.process blake3 r (d.others st.db)).after, st.dedupe.mark (dedupeId blake3 d.sectorBytes)⟩,
          .handed (d.process blake3 r (d.others st.db)))) := by
  unfold receive
  by_cases h : st.dedupe.seen (dedupeId blake3 d.sectorBytes) = true
  · refine .inl ⟨h, ?_⟩
    simp only [h, if_true]
  · refine .inr ⟨Bool.eq_false_iff.mpr h, ?_⟩
    simp only [h, Bool.false_eq_true, if_false]

/-- The ids of the sectors handed over, the newest first. -/
def handedIds (events : List Event) : List SectorId := (handedSectors events).reverse.map (dedupeId blake3)

theorem handedIds_append (events events' : List Event) :
    handedIds blake3 (events ++ events') = handedIds blake3 events' ++ handedIds blake3 events := by
  unfold handedIds handedSectors handedOver
  rw [List.filterMap_append, List.map_append, List.reverse_append, List.map_append]

theorem capacity_receive (st : LoopState) (d : Delivery) :
    (receive blake3 r st d).1.dedupe.inner.capacity = st.dedupe.inner.capacity := by
  rcases receive_cases blake3 r st d with ⟨-, heq⟩ | ⟨-, heq⟩
  · rw [heq]
  · rw [heq]
    rfl

theorem capacity_receiveLoop (st : LoopState) (pre : List Delivery) :
    (receiveLoop blake3 r st (pre.map .ok)).1.dedupe.inner.capacity = st.dedupe.inner.capacity := by
  induction pre generalizing st with
  | nil => rfl
  | cons d pre ih => rw [List.map_cons, receiveLoop_cons, ih, capacity_receive]

/-- One sector moves the window by one, or not at all. -/
theorem receive_window {hist : List SectorId} (h : st.dedupe.inner.Window hist) (d : Delivery) :
    (receive blake3 r st d).1.dedupe.inner.Window (handedIds blake3 [(receive blake3 r st d).2] ++ hist) := by
  rcases receive_cases blake3 r st d with ⟨-, heq⟩ | ⟨hseen, heq⟩
  · rw [heq]
    exact h
  · rw [heq]
    exact h.put hseen

/-- Over a run the cache holds the ids of the sectors handed over last. -/
theorem receiveLoop_window {hist : List SectorId} (h : st.dedupe.inner.Window hist) (pre : List Delivery) :
    (receiveLoop blake3 r st (pre.map .ok)).1.dedupe.inner.Window
      (handedIds blake3 (receiveLoop blake3 r st (pre.map .ok)).2 ++ hist) := by
  induction pre generalizing st hist with
  | nil => exact h
  | cons d pre ih =>
    have hrest := ih (receive_window blake3 r h d)
    rw [List.map_cons, receiveLoop_cons, ← List.singleton_append, handedIds_append, List.append_assoc]
    exact hrest

/-- What was handed over is what `process_inbound_dm` made of a sector. -/
theorem handed_eq_process (st : LoopState) {pre : List Delivery} {h : Handed}
    (hh : h ∈ handedOver (receiveLoop blake3 r st (pre.map .ok)).2) :
    ∃ d ∈ pre, ∃ db, h = d.process blake3 r db := by
  induction pre generalizing st with
  | nil => cases hh
  | cons d pre ih =>
    have hrest : ∀ st, h ∈ handedOver (receiveLoop blake3 r st (pre.map .ok)).2 →
        ∃ d' ∈ d :: pre, ∃ db, h = d'.process blake3 r db := by
      intro st hh
      obtain ⟨d', hd', hdb⟩ := ih st hh
      exact ⟨d', List.mem_cons_of_mem _ hd', hdb⟩
    rw [List.map_cons, receiveLoop_cons] at hh
    rcases receive_cases blake3 r st d with ⟨-, heq⟩ | ⟨-, heq⟩
    · rw [heq] at hh
      exact hrest _ hh
    · rw [heq] at hh
      rcases List.mem_cons.mp hh with rfl | hh
      · exact ⟨d, List.mem_cons_self, _, rfl⟩
      · exact hrest _ hh

/-- What the loop does with sectors, from an empty cache of capacity `c`. -/
def receiveAll (db : ZeroDb) (c : Nat) (pos : 0 < c) (stream : List Delivery) : LoopState × List Event :=
  receiveLoop blake3 r ⟨db, .new c pos⟩ (stream.map .ok)

variable (db : ZeroDb) {c : Nat} (pos : 0 < c)

theorem receiveAll_window (pre : List Delivery) :
    (receiveAll blake3 r db c pos pre).1.dedupe.inner.Window
      (handedIds blake3 (receiveAll blake3 r db c pos pre).2) := by
  have hnew : (⟨db, .new c pos⟩ : LoopState).dedupe.inner.Window [] := Lru.window_new c pos
  have h := receiveLoop_window blake3 r hnew pre
  rw [List.append_nil] at h
  exact h

theorem capacity_receiveAll (pre : List Delivery) : (receiveAll blake3 r db c pos pre).1.dedupe.inner.capacity = c :=
  capacity_receiveLoop blake3 r _ pre

theorem spaced_handedSectors (pre : List Delivery) :
    Spaced c (handedSectors (receiveAll blake3 r db c pos pre).2).reverse := by
  have h := (receiveAll_window blake3 r db pos pre).spaced
  rw [capacity_receiveAll] at h
  exact h.of_map

/-- With ids that tell the sectors of `S` apart, the cache has seen one of
them if it is among the last `c` handed over. -/
theorem seen_iff {S : Set Bytes} (hinj : S.InjOn (dedupeId blake3)) {pre : List Delivery}
    (hpre : ∀ d ∈ pre, d.sectorBytes ∈ S) {b : Bytes} (hb : b ∈ S) :
    (receiveAll blake3 r db c pos pre).1.dedupe.seen (dedupeId blake3 b) = true ↔
      b ∈ (handedSectors (receiveAll blake3 r db c pos pre).2).rtake c := by
  have hmem : ∀ s ∈ (handedSectors (receiveAll blake3 r db c pos pre).2).reverse.take c, s ∈ S := by
    intro s hs
    obtain ⟨h, hh, rfl⟩ := List.mem_map.mp (List.mem_reverse.mp (List.mem_of_mem_take hs))
    obtain ⟨d, hd, db', rfl⟩ := handed_eq_process blake3 r _ hh
    exact hpre d hd
  unfold DedupeCache.seen
  rw [(receiveAll_window blake3 r db pos pre).peek_iff, capacity_receiveAll, handedIds, ← List.map_take,
    List.rtake_eq_reverse_take_reverse, List.mem_reverse, List.mem_map]
  constructor
  · intro ⟨s, hs, heq⟩
    rw [← hinj (hmem s hs) hb heq]
    exact hs
  · intro h
    exact ⟨b, h, rfl⟩

/-- Between two times a sector is handed over, `c` others are: the `c` after
the first one are all different. -/
theorem gap_handedSectors {stream : List Delivery} {p mid q : List Bytes} {b : Bytes}
    (h : handedSectors (receiveAll blake3 r db c pos stream).2 = p ++ b :: (mid ++ b :: q)) :
    (mid.take c).length = c ∧ (b :: mid.take c).Nodup := by
  have hspaced := spaced_handedSectors blake3 r db pos stream
  have hlen : c ≤ mid.length := by
    rw [h] at hspaced
    simp only [List.reverse_append, List.reverse_cons, List.append_assoc, List.singleton_append] at hspaced
    rw [← List.length_reverse]
    exact hspaced.gap
  have htake : (mid.take c).length = c := List.length_take_of_le hlen
  refine ⟨htake, ?_⟩
  -- `b` and the `c` sectors after it, in the order of the history
  have hsplit : (handedSectors (receiveAll blake3 r db c pos stream).2).reverse =
      (mid.drop c ++ b :: q).reverse ++ ((b :: mid.take c).reverse ++ p.reverse) := by
    rw [h, ← List.reverse_append, ← List.reverse_append, List.append_assoc, List.cons_append, ← List.append_assoc,
      List.take_append_drop]
  rw [hsplit] at hspaced
  have hnodup := hspaced.of_append.nodup_take
  rw [List.take_append_of_le_length (by simp [htake]), List.take_of_length_le (by simp [htake])] at hnodup
  exact List.nodup_reverse.mp hnodup

/-- The sectors of a stream. -/
def sectorsOf (stream : List Delivery) : Set Bytes := {b | ∃ d ∈ stream, d.sectorBytes = b}

theorem skipped_iff {stream pre post : List Delivery} {d : Delivery} (heq : stream = pre ++ d :: post)
    (hinj : (sectorsOf stream).InjOn (dedupeId blake3)) :
    (receiveAll blake3 r db c pos stream).2[pre.length]? = some (.skipped d) ↔
      d.sectorBytes ∈ (handedSectors (receiveAll blake3 r db c pos pre).2).rtake c := by
  have hpre : ∀ d' ∈ pre, d'.sectorBytes ∈ sectorsOf stream :=
    fun d' hd' => ⟨d', heq ▸ List.mem_append_left _ hd', rfl⟩
  have hd : d.sectorBytes ∈ sectorsOf stream := ⟨d, heq ▸ List.mem_append_right _ List.mem_cons_self, rfl⟩
  rw [← seen_iff blake3 r db pos hinj hpre hd, heq]
  unfold receiveAll
  rw [List.map_append, List.map_cons, getElem_events]
  rcases receive_cases blake3 r (receiveLoop blake3 r ⟨db, .new c pos⟩ (pre.map .ok)).1 d with
    ⟨hseen, hev⟩ | ⟨hseen, hev⟩
  · simp [hseen, hev]
  · simp [hseen, hev]

/-- **The dedupe window.** A sector is skipped exactly when it is among the
last `c` handed over, so it is handed over again only after `c` others, and
the cache never has more than `c` ids. -/
theorem dedupe_window {stream : List Delivery} (hinj : (sectorsOf stream).InjOn (dedupeId blake3)) :
    (∀ pre d post, stream = pre ++ d :: post →
      ((receiveAll blake3 r db c pos stream).2[pre.length]? = some (.skipped d) ↔
        d.sectorBytes ∈ (handedSectors (receiveAll blake3 r db c pos pre).2).rtake c)) ∧
    (∀ p b mid q, handedSectors (receiveAll blake3 r db c pos stream).2 = p ++ b :: (mid ++ b :: q) →
      (mid.take c).length = c ∧ (b :: mid.take c).Nodup) ∧
    ∀ pre, pre <+: stream → (receiveAll blake3 r db c pos pre).1.dedupe.len ≤ c := by
  refine ⟨fun pre d post heq => skipped_iff blake3 r db pos heq hinj,
    fun p b mid q h => gap_handedSectors blake3 r db pos h, fun pre _ => ?_⟩
  have hlen := (receiveAll blake3 r db c pos pre).1.dedupe.inner.length_le
  rw [capacity_receiveAll] at hlen
  exact hlen

end Window

/-- A hash that keeps the first 32 bytes. -/
def padded (b : Bytes) : Arr 32 := ⟨(b ++ List.replicate 32 0).take 32, by simp⟩

/-- A sector of one byte. -/
def byteSector (b : UInt8) : Delivery := ⟨[b], id, 10, 10, ⟨Arr.fill 16 1⟩, 10, []⟩

/-- With room for one id, a sector is skipped right after itself and comes
through after another one. -/
theorem dedupe_window_repeats :
    let stream := [byteSector 1, byteSector 1, byteSector 2, byteSector 1]
    (sectorsOf stream).InjOn (dedupeId padded) ∧
      (receiveAll padded stranger ZeroDb.empty 1 (by decide) stream).2[1]? = some (.skipped (byteSector 1)) ∧
      handedSectors (receiveAll padded stranger ZeroDb.empty 1 (by decide) stream).2 = [[1], [2], [1]] := by
  intro stream
  have hinj : (sectorsOf stream).InjOn (dedupeId padded) := by
    have hmem : ∀ b ∈ sectorsOf stream, b = [1] ∨ b = [2] := by
      intro b ⟨d, hd, hb⟩
      simp only [stream, List.mem_cons, List.not_mem_nil, or_false] at hd
      rcases hd with rfl | rfl | rfl | rfl <;> simp [← hb, byteSector]
    intro b hb b' hb' heq
    rcases hmem b hb with rfl | rfl <;> rcases hmem b' hb' with rfl | rfl
    · rfl
    · exact absurd heq (by decide)
    · exact absurd heq (by decide)
    · rfl
  refine ⟨hinj, ?_, by decide +kernel⟩
  exact ((dedupe_window padded stranger ZeroDb.empty (by decide) hinj).1 [byteSector 1] (byteSector 1)
    [byteSector 2, byteSector 1] rfl).mpr (by decide +kernel)

/-! ## Lag -/

/-- A stream runs without an error, or up to its first one. -/
theorem ok_or_error {ε α : Type} (l : List (Except ε α)) :
    (∃ pre : List α, l = pre.map .ok) ∨ ∃ (pre : List α) (e : ε) (post : List (Except ε α)),
      l = pre.map .ok ++ .error e :: post := by
  induction l with
  | nil => exact .inl ⟨[], rfl⟩
  | cons x l ih =>
    cases x with
    | error e => exact .inr ⟨[], e, l, rfl⟩
    | ok a =>
      rcases ih with ⟨pre, rfl⟩ | ⟨pre, e, post, rfl⟩
      · exact .inl ⟨a :: pre, rfl⟩
      · exact .inr ⟨a :: pre, e, post, rfl⟩

section Lag
variable (blake3 : Bytes → Arr 32) (r : DmReceiver) (st : LoopState)

/-- The loop on a subscription of `RealGridClient`. -/
def listen (items : List (Except Lagged Delivery)) : LoopState × List Event :=
  receiveLoop blake3 r st (items.map subscribeItem)

theorem listen_ok_append (pre : List Delivery) (items : List (Except Lagged Delivery)) :
    listen blake3 r st (pre.map .ok ++ items) =
      receiveLoop blake3 r st (pre.map .ok ++ items.map subscribeItem) := by
  unfold listen
  rw [List.map_append, List.map_map]
  rfl

theorem listen_ok (pre : List Delivery) : listen blake3 r st (pre.map .ok) = receiveLoop blake3 r st (pre.map .ok) := by
  have h := listen_ok_append blake3 r st pre []
  rw [List.append_nil, List.map_nil, List.append_nil] at h
  exact h

theorem listen_error (pre : List Delivery) (e : Lagged) (items : List (Except Lagged Delivery)) :
    listen blake3 r st (pre.map .ok ++ .error e :: items) = listen blake3 r st (pre.map .ok) := by
  rw [listen_ok_append, List.map_cons, listen_ok]
  exact receiveLoop_error pre _ _

/-- The sector after `pre` is one the cache has seen when it comes. -/
def Suppressed (pre : List (Except Lagged Delivery)) (d : Delivery) : Prop :=
  (listen blake3 r st pre).1.dedupe.seen (dedupeId blake3 d.sectorBytes) = true

/-- The sector after `pre` is handed to `process_inbound_dm`. -/
def IsHanded (items pre : List (Except Lagged Delivery)) (d : Delivery) : Prop :=
  ∃ h rest, h.delivery = d ∧ (listen blake3 r st items).2 = (listen blake3 r st pre).2 ++ .handed h :: rest

theorem suppressed_or_handed (pre : List Delivery) (d : Delivery) (post : List (Except Lagged Delivery)) :
    Suppressed blake3 r st (pre.map .ok) d ∨
      IsHanded blake3 r st (pre.map .ok ++ .ok d :: post) (pre.map .ok) d := by
  unfold Suppressed IsHanded
  have hitem : subscribeItem (.ok d) = .ok d := rfl
  rw [listen_ok, listen_ok_append, List.map_cons, hitem, receiveLoop_append, receiveLoop_cons]
  rcases receive_cases blake3 r (receiveLoop blake3 r st (pre.map .ok)).1 d with ⟨hseen, -⟩ | ⟨-, heq⟩
  · exact .inl hseen
  · rw [heq]
    exact .inr ⟨_, _, rfl, rfl⟩

/-- **Surviving a lag.** Every sector that the cache does not suppress is
handed over if and only if every sector after the first lag is one that the
cache has seen by then. -/
theorem survives_lag_iff (items : List (Except Lagged Delivery)) :
    (∀ pre d post, items = pre ++ .ok d :: post →
      Suppressed blake3 r st pre d ∨ IsHanded blake3 r st items pre d) ↔
    ∀ (pre : List Delivery) e post, items = pre.map .ok ++ .error e :: post →
      ∀ d, .ok d ∈ post → Suppressed blake3 r st (pre.map .ok) d := by
  constructor
  · intro h pre e post heq d hd
    obtain ⟨mid, post', rfl⟩ := List.append_of_mem hd
    have hsplit : items = (pre.map .ok ++ .error e :: mid) ++ .ok d :: post' := by
      rw [heq, List.append_assoc, List.cons_append]
    rcases h _ d post' hsplit with hsup | ⟨handed, rest, -, hev⟩
    · unfold Suppressed at hsup ⊢
      rw [listen_error] at hsup
      exact hsup
    · -- the loop has ended, and hands nothing over
      rw [heq, listen_error, listen_error] at hev
      have := congrArg List.length hev
      simp at this
  · intro h pre d post heq
    rcases ok_or_error pre with ⟨pre, rfl⟩ | ⟨pre, e, mid, rfl⟩
    · rw [heq]
      exact suppressed_or_handed blake3 r st pre d post
    · refine .inl ?_
      rw [List.append_assoc, List.cons_append] at heq
      have hsup := h pre e _ heq d (List.mem_append_right _ List.mem_cons_self)
      unfold Suppressed at hsup ⊢
      rw [listen_error]
      exact hsup

end Lag

/-- `hello` as it comes in. -/
def helloDelivery : Delivery := ⟨DmSectorPayload.codec.enc hello, id, 10, 10, ⟨Arr.fill 16 1⟩, 10, []⟩

/-- A lag, and then `hello`: no one has seen it, and it is not handed over. -/
theorem lag_ends_loop :
    ¬ ∀ pre d post, [.error ⟨1⟩, .ok helloDelivery] = pre ++ .ok d :: post →
      Suppressed padded stranger ⟨ZeroDb.empty, .new 1 (by decide)⟩ pre d ∨
        IsHanded padded stranger ⟨ZeroDb.empty, .new 1 (by decide)⟩ [.error ⟨1⟩, .ok helloDelivery] pre d := by
  intro h
  rcases h [.error ⟨1⟩] helloDelivery [] rfl with hsup | ⟨handed, rest, -, hev⟩
  · cases hsup
  · cases hev

end ZeroSdk.Dm
