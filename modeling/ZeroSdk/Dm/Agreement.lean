/-
Agreement of the two parties. The sender stores a message before it queues the
sector, nothing takes a message away, and as long as no message id is drawn
twice in a conversation nothing takes its place. So whatever is queued or in
flight is a message `A` has, and whatever the network drops, repeats, delays
and reorders, a message `B` has is one `A` has, with the same content
(`agreement`).
-/
import ZeroSdk.Dm.Provenance

namespace ZeroSdk.Dm
open DmService Outbox

/-- `A` has the payload's message. -/
def World.Has (w : World) (p : DmSectorPayload) : Prop :=
  ∃ m, messageAt w.a p.conversationId p.messageId = some m ∧ m.IsOf p

/-- No message id is drawn twice in a conversation. -/
def FreshSends (sender : DmService) (acts : List Action) : Prop :=
  acts.Pairwise fun act act' => ∀ p p', act.Sends sender p → act'.Sends sender p' →
    ¬ (p'.conversationId = p.conversationId ∧ p'.messageId = p.messageId)

section Steps
variable {blake3 : Bytes → Arr 32} {sender : DmService} {recipient : DmReceiver} {w : World} {p : DmSectorPayload}

theorem World.Has.update (h : w.Has p) {a : ZeroDb} {o : Option Message} (hu : Update w.a a o)
    (ho : ∀ m, o = some m → m.conversationId = p.conversationId → m.id = p.messageId → m.IsOf p) :
    { w with a }.Has p := by
  obtain ⟨m, hm, hof⟩ := h
  have hafter := hu.messages p.conversationId p.messageId
  cases o with
  | none => exact ⟨m, hafter.trans hm, hof⟩
  | some new =>
    simp only at hafter
    split at hafter
    · next heq => exact ⟨new, hafter, ho new rfl heq.1 heq.2⟩
    · exact ⟨m, hafter.trans hm, hof⟩

theorem Message.IsOf.withStatus {m : Message} (h : m.IsOf p) (status : MessageStatus) (now : UInt64) :
    { m with status, statusUpdatedAtMs := now }.IsOf p := by
  unfold Message.IsOf at h ⊢
  rw [h]
  rfl

theorem World.Has.updateStatus (h : w.Has p) (hkeyed : WellKeyed w.a) (c : ConversationId) (id : MessageId)
    (new : MessageStatus) (now : UInt64) : { w with a := (w.a.run (DmService.updateStatus c id new now)).2 }.Has p := by
  rcases update_updateStatus w.a c id new now with ⟨e, hrun, -⟩ | ⟨m, hm, -, hrun⟩
  · rw [hrun]
    exact h
  · rw [hrun]
    refine h.update (update_storeMessage w.a _) fun m' hm' hc hid => ?_
    cases hm'
    obtain ⟨rfl, rfl⟩ := hkeyed.own hm
    -- the message it has read is the payload's
    obtain ⟨m₀, hm₀, hof⟩ := h
    rw [← hc, ← hid, hm] at hm₀
    cases hm₀
    exact hof.withStatus new now

theorem World.Has.step (h : w.Has p) (hkeyed : WellKeyed w.a) {act : Action}
    (hact : ∀ p', act.Sends sender p' → ¬ (p'.conversationId = p.conversationId ∧ p'.messageId = p.messageId)) :
    (w.step blake3 sender recipient act).Has p := by
  cases act with
  | openA peer => exact h.update (update_openConversation blake3 w.a sender peer) fun m hm => by cases hm
  | sendText c text nowMs id sectorId =>
    rcases update_sendText w.a sender c text nowMs id sectorId with hsame | hu
    · simp only [World.step, hsame]
      exact h
    · refine h.update hu fun m hm hc hid => ?_
      cases hm
      exact absurd ⟨hc, hid⟩ (hact _ rfl)
  | acknowledgeSent c id nowMs => exact h.updateStatus hkeyed c id .sent nowMs
  | outboxA act => exact h.update (act.update w.a) fun m hm => by cases hm
  | deliverReceipt bytes nowMs =>
    simp only [World.step]
    split
    · unfold handleReceipt
      cases decodeReceipt bytes with
      | error e => exact h
      | ok r => exact h.updateStatus hkeyed _ _ _ nowMs
    · exact h
  | markRead c id updatedMs nowMs =>
    simp only [World.step]
    split
    · exact h
    · exact h
  | deliverDm bytes nowMs receiptMs sectorId enqueuedMs =>
    simp only [World.step]
    split
    · exact h
    · exact h
  | _ => exact h

theorem agree_step (blake3 : Bytes → Arr 32) (recipient : DmReceiver) {Sent : DmSectorPayload → Prop}
    (h : Inv (fun _ _ => True) (fun _ _ => True) (fun p => Sent p ∧ w.Has p) w) {act : Action}
    (hfresh : ∀ p, Sent p → ∀ p', act.Sends sender p' →
      ¬ (p'.conversationId = p.conversationId ∧ p'.messageId = p.messageId)) :
    Inv (fun _ _ => True) (fun _ _ => True)
      (fun p => (Sent p ∨ act.Sends sender p) ∧ (w.step blake3 sender recipient act).Has p)
      (w.step blake3 sender recipient act) := by
  have hmono : Inv (fun _ _ => True) (fun _ _ => True)
      (fun p => (Sent p ∨ act.Sends sender p) ∧ (w.step blake3 sender recipient act).Has p) w :=
    h.mono (fun _ _ h => h) (fun _ _ h => h) fun p hp =>
      ⟨.inl hp.1, hp.2.step h.keyedA fun p' hp' => hfresh p hp.1 p' hp'⟩
  -- a message that is sent is stored, unless the conversation cannot be read and nothing happens
  by_cases hsent : ∀ p, act.Sends sender p → (w.step blake3 sender recipient act).Has p
  · exact inv_step hmono act (fun _ _ _ _ => trivial) (fun _ _ _ => trivial) fun p hp => ⟨.inr hp, hsent p hp⟩
  · cases act with
    | sendText c text nowMs id sectorId =>
      cases hres : (w.a.run (resumeConversation c)).1 with
      | error e =>
        have hsame : w.step blake3 sender recipient (.sendText c text nowMs id sectorId) = w := by
          simp only [World.step, sendText_refused hres]
        rw [hsame] at hmono ⊢
        exact hmono
      | ok conv =>
        refine absurd (fun p hp => ?_) hsent
        obtain rfl := hp
        exact ⟨_, (update_sendText_ok hres text nowMs id sectorId).written, rfl⟩
    | _ => exact absurd (fun p hp => hp.elim) hsent

end Steps

/-! ## Runs -/

variable {sender : DmService}

theorem agree_run (blake3 : Bytes → Arr 32) (recipient : DmReceiver) {w : World} (hw : w.Fresh) {acts : List Action} (hfresh : FreshSends sender acts) :
    Inv (fun _ _ => True) (fun _ _ => True)
      (fun p => SentIn sender acts p ∧ (w.run blake3 sender recipient acts).Has p)
      (w.run blake3 sender recipient acts) := by
  induction acts using List.reverseRecOn with
  | nil => exact hw.inv _ _ _
  | append_singleton acts act ih =>
    have hrun : w.run blake3 sender recipient (acts ++ [act]) =
        (w.run blake3 sender recipient acts).step blake3 sender recipient act := by
      rw [World.run, List.foldl_append]
      rfl
    obtain ⟨hpre, -, hlast⟩ := List.pairwise_append.mp hfresh
    have hnew : ∀ p, SentIn sender acts p → ∀ p', act.Sends sender p' →
        ¬ (p'.conversationId = p.conversationId ∧ p'.messageId = p.messageId) := by
      rintro p ⟨act', hmem, hsends⟩ p' hp'
      exact hlast act' hmem act (List.mem_singleton.mpr rfl) p p' hsends hp'
    have hstep := agree_step blake3 recipient (ih hpre) hnew
    rw [hrun]
    refine hstep.mono (fun _ _ h => h) (fun _ _ h => h) fun p hp => ⟨?_, hp.2⟩
    rcases hp.1 with hsent | hsends
    · obtain ⟨act', hmem, hsends⟩ := hsent
      exact ⟨act', List.mem_append_left _ hmem, hsends⟩
    · exact ⟨act, List.mem_append_right _ (List.mem_singleton.mpr rfl), hsends⟩

/-- **Agreement.** At any point of any run, whatever the network drops,
repeats, delays and reorders: a message that `B` has stored is one that `A`
sent and has stored, and both have it as it was sent, up to its status. -/
theorem agreement {blake3 : Bytes → Arr 32} {recipient : DmReceiver} {w : World} (hw : w.Fresh) {acts : List Action} (hfresh : FreshSends sender acts)
    {c : ConversationId} {id : MessageId} {m : Message}
    (hm : messageAt (w.run blake3 sender recipient acts).b c id = some m) :
    ∃ p m', SentIn sender acts p ∧ m.IsOf p ∧
      messageAt (w.run blake3 sender recipient acts).a c id = some m' ∧ m'.IsOf p := by
  have hinv := agree_run blake3 recipient hw hfresh
  obtain ⟨-, p, ⟨hsent, m', hm', hof'⟩, hof⟩ := hinv.messagesB c id m hm
  obtain ⟨hc, hid⟩ := hinv.keyedB.own hm
  have hp : p.conversationId = c ∧ p.messageId = id := by
    rw [← hc, ← hid, hof]
    exact ⟨rfl, rfl⟩
  rw [hp.1, hp.2] at hm'
  exact ⟨p, m', hsent, hof, hm', hof'⟩

/-- The exchange of `Provenance`: the message comes to `bob` twice. -/
theorem agreement_exchange :
    let blake3 : Bytes → Arr 32 := fun _ => Arr.fill 32 9
    let w : World := ⟨aliceDb, ZeroDb.empty, [], []⟩
    ∃ m p m', messageAt (w.run blake3 alice bob exchange).b ⟨Arr.fill 32 9⟩ ⟨Arr.fill 16 7⟩ = some m ∧
      SentIn alice exchange p ∧ m.IsOf p ∧
      messageAt (w.run blake3 alice bob exchange).a ⟨Arr.fill 32 9⟩ ⟨Arr.fill 16 7⟩ = some m' ∧ m'.IsOf p := by
  intro blake3 w
  have hw : w.Fresh := ⟨fun _ => rfl, fun _ => rfl, fun _ => rfl, fun _ => rfl, rfl, rfl⟩
  have hfresh : FreshSends alice exchange := by
    simp [FreshSends, exchange, Action.Sends]
  have hm : messageAt (w.run blake3 alice bob exchange).b ⟨Arr.fill 32 9⟩ ⟨Arr.fill 16 7⟩ =
      some ⟨⟨Arr.fill 16 7⟩, ⟨Arr.fill 32 9⟩, ⟨Arr.fill 16 1⟩, ⟨Arr.fill 16 1⟩, Str.empty, .read, 10, 50⟩ := by
    decide +kernel
  obtain ⟨p, m', hsent, hof, hm', hof'⟩ := agreement hw hfresh hm
  exact ⟨_, p, m', hm, hsent, hof, hm', hof'⟩

end ZeroSdk.Dm
