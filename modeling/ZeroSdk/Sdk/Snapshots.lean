/-
What a read returns is what the store held. A call that only reads makes one
operation on the store, and what it returns follows from the answer: it
returns what it returns alone on the store of that moment (`Looks`). RocksDB
may fail at the operation, and an iterator may fail on its way; then the call
fails, unless it had stopped before, so what it returns is the same as
without the failure (`Steady`).
-/
import ZeroSdk.Sdk.Messages

namespace ZeroSdk
open Prog
open ZeroDb (handleAt)

abbrev Items : Type := List (Except RocksError (Bytes × Bytes))

section Looks
variable {ε ε' α β : Type} {V : ZeroDb → Prop} {cf : Cf} {key : Bytes} {mode : IteratorMode}

/-- What the program returns it returns alone on a store of `V`, whose
operations are answered by stores of `V`. -/
def Looks (V : ZeroDb → Prop) (p : DbProg ε α) : Prop :=
  p.Hears handleAt V fun r => ∀ a, r = .ok a → ∃ db, V db ∧ (db.run p).1 = .ok a

theorem Looks.bind {p : DbProg ε α} {f : α → DbProg ε β} (hp : Looks V p) (hf : ∀ a, ∃ r, f a = .ret r) :
    Looks V (p >>= f) := by
  refine Hears.bind hp (fun a ha => ?_) fun e _ => ?_
  · obtain ⟨r, hr⟩ := hf a
    obtain ⟨db, hdb, hrun⟩ := ha a rfl
    rw [hr]
    intro b hb
    refine ⟨db, hdb, ?_⟩
    rw [ZeroDb.run, run_bind_ok ZeroDb.handle (Prod.ext hrun rfl), hr, run_ret]
    exact hb
  · intro b hb
    cases hb

theorem Looks.mapErr {p : DbProg ε α} (hp : Looks V p) (g : ε → ε') : Looks V (p.mapErr g) := by
  refine Hears.mapErr hp fun r hr a ha => ?_
  cases r with
  | error e => cases ha
  | ok b =>
    cases ha
    obtain ⟨db, hdb, hrun⟩ := hr a rfl
    refine ⟨db, hdb, ?_⟩
    rw [ZeroDb.run, run_mapErr]
    exact congrArg (Except.mapError g) hrun

/-- A value that is decoded and returned. -/
theorem lift_bind_ret (r : Except ε α) {f : α → DbProg ε β} (hf : ∀ a, ∃ x, f a = .ret x) :
    ∃ x, Prog.bind (lift r) f = .ret x := by
  cases r with
  | error e => exact ⟨_, rfl⟩
  | ok a => exact hf a

/-- A point read, after which nothing is read and a failure is passed on. -/
theorem looks_get {k : Except RocksError (Option Bytes) → DbProg ε α} (hret : ∀ b, ∃ r, k b = .ret r)
    (herr : ∀ e, ∃ e', k (.error e) = .ret (.error e')) : Looks V (.op (.get cf key) k) := by
  intro f db hdb
  cases f with
  | some f =>
    obtain ⟨e', he'⟩ := herr f.error
    change (k (.error f.error)).Hears handleAt V _
    rw [he']
    exact fun a ha => by cases ha
  | none =>
    obtain ⟨r, hr⟩ := hret (.ok (db.get cf key))
    change (k (.ok (db.get cf key))).Hears handleAt V _
    rw [hr]
    refine fun a ha => ⟨db, hdb, ?_⟩
    change ((k (.ok (db.get cf key))).run ZeroDb.handle db).1 = _
    rw [hr]
    exact ha

theorem looks_getRaw : Looks V (getRaw cf key) := looks_get (fun _ => ⟨_, rfl⟩) fun _ => ⟨_, rfl⟩

/-- A loop that an iterator's failure makes fail, unless it does not get to
it. -/
def Steady (g : Items → Except ε α) : Prop :=
  ∀ items n e a, g (items.take n ++ [.error e]) = .ok a → g items = .ok a

/-- A loop over an iterator, after which nothing is read. -/
theorem looks_iteratorCf {g : Items → Except ε α} (hg : Steady g) {k : Items → DbProg ε α}
    (hk : ∀ items, k items = .ret (g items)) : Looks V (iteratorCf cf mode >>= k) := by
  intro f db hdb
  have halone : (db.run (iteratorCf cf mode >>= k)).1 = g ((db.items cf mode).map .ok) := by
    rw [ZeroDb.run, run_bind_ok ZeroDb.handle rfl, hk]
    rfl
  change (k (handleAt f (.iterator cf mode) db).1).Hears handleAt V _
  rw [hk]
  refine fun a ha => ⟨db, hdb, ?_⟩
  rw [halone]
  cases f with
  | some f => exact hg _ _ _ _ ha
  | none => exact ha

/-- A loop with a state `c`, from what it makes of one item. -/
theorem steady_of_step {γ : Type} {g : γ → Items → Except ε α} (herr : ∀ c e rest a, g c (.error e :: rest) ≠ .ok a)
    (hok : ∀ kv rest rest', (∀ c a, g c rest = .ok a → g c rest' = .ok a) →
      ∀ c a, g c (.ok kv :: rest) = .ok a → g c (.ok kv :: rest') = .ok a) (c : γ) : Steady (g c) := by
  intro items n e
  suffices h : ∀ c a, g c (items.take n ++ [.error e]) = .ok a → g c items = .ok a from h c
  induction items generalizing n with
  | nil =>
    intro c a ha
    rw [List.take_nil] at ha
    exact absurd ha (herr _ _ _ _)
  | cons x items ih =>
    intro c a ha
    cases n with
    | zero => exact absurd ha (herr _ _ _ _)
    | succ n =>
      cases x with
      | error e' => exact absurd ha (herr _ _ _ _)
      | ok kv => exact hok kv _ _ (ih n) c a ha

/-- What a result that is `ok` becomes is not lost by a result that is the
same where it is `ok`. -/
theorem map_ok {r r' : Except ε α} (h : ∀ a, r = .ok a → r' = .ok a) {g : α → β} {b : β} (hb : r.map g = .ok b) :
    r'.map g = .ok b := by
  cases r with
  | error e => cases hb
  | ok a => rw [h a rfl, hb]

theorem Steady.map {g : Items → Except ε α} (h : Steady g) (f : α → β) : Steady fun items => (g items).map f :=
  fun items n e _ hb => map_ok (h items n e) hb

theorem steady_decodeWhile (p : Bytes → Bool) (dec : Bytes → Except ε α) (fail : RocksError → ε) :
    Steady (decodeWhile p dec fail) := by
  refine steady_of_step (g := fun _ : Unit => decodeWhile p dec fail) (fun _ _ _ _ h => by cases h)
    (fun kv rest rest' hrest c a ha => ?_) ()
  obtain ⟨k, v⟩ := kv
  rw [decodeWhile] at ha ⊢
  split at ha
  · next hk =>
    rw [if_pos hk]
    split at ha
    · cases ha
    · exact map_ok (hrest c) ha
  · next hk => rw [if_neg hk, ha]

theorem steady_prefixScanLoop (pre : Bytes) : Steady (prefixScanLoop pre) := by
  refine steady_of_step (g := fun _ : Unit => prefixScanLoop pre) (fun _ _ _ _ h => by cases h)
    (fun kv rest rest' hrest c a ha => ?_) ()
  obtain ⟨k, v⟩ := kv
  rw [prefixScanLoop] at ha ⊢
  split at ha
  · next hk =>
    rw [if_pos hk]
    exact map_ok (hrest c) ha
  · next hk => rw [if_neg hk, ha]

theorem steady_countLoop (n : Nat) : Steady (Outbox.countLoop n) :=
  steady_of_step (fun _ _ _ _ h => by cases h) (fun _ _ _ hrest n a ha => hrest (n + 1) a ha) n

theorem steady_historyLoop (pre seekKey : Bytes) (before : Option MessageId) (limit : Nat) (results : List Dm.Message) :
    Steady (Dm.historyLoop pre seekKey before limit results) := by
  refine steady_of_step (fun _ _ _ _ h => by cases h) (fun kv rest rest' hrest results a ha => ?_) results
  obtain ⟨k, v⟩ := kv
  rw [Dm.historyLoop] at ha ⊢
  split at ha
  · next hk => rw [if_pos hk, ha]
  · next hk =>
    rw [if_neg hk]
    split at ha
    · next hseek =>
      rw [if_pos hseek]
      exact hrest results a ha
    · next hseek =>
      rw [if_neg hseek]
      split at ha
      · cases ha
      · split at ha
        · next hfull => rw [if_pos hfull, ha]
        · next hmore =>
          rw [if_neg hmore]
          exact hrest _ a ha

theorem looks_prefixScanRaw {pre : Bytes} : Looks V (prefixScanRaw cf pre) :=
  looks_iteratorCf (steady_prefixScanLoop pre) fun _ => rfl

end Looks

/-! ## The functions that only read -/

variable {V : ZeroDb → Prop}

theorem ContactStore.looks_getContact (store : ContactStore) (id : IdentityId) : Looks V (store.getContact id) := by
  refine looks_get (fun b => ?_) fun e => ⟨_, rfl⟩
  rcases b with e | _ | v
  · exact ⟨_, rfl⟩
  · exact ⟨_, rfl⟩
  · exact lift_bind_ret ((Postcard.fromBytes Contact.codec v).mapError ContactError.codec) fun _ => ⟨_, rfl⟩

theorem ContactStore.looks_listContacts (store : ContactStore) : Looks V store.listContacts :=
  looks_iteratorCf (steady_decodeWhile _ _ _) fun items => congrArg Prog.ret (listContactsLoop_eq _ items)

namespace ZeroDb

theorem looks_getSector (i m : Str) (id : SectorId) : Looks V (getSector i m id) := by
  refine looks_getRaw.bind fun b => ?_
  cases b with
  | none => exact ⟨_, rfl⟩
  | some v => exact lift_bind_ret (decodeSector v) fun _ => ⟨_, rfl⟩

theorem looks_iterChain (i m : Str) : Looks V (iterChain i m) :=
  looks_iteratorCf (steady_decodeWhile _ _ _) fun items => congrArg Prog.ret (iterChainLoop_eq _ items)

end ZeroDb

namespace Outbox

theorem looks_count : Looks V count := looks_iteratorCf (steady_countLoop 0) fun _ => rfl

theorem looks_dequeueDue (nowMs : UInt64) : Looks V (dequeueDue nowMs) := by
  refine Looks.bind ?_ fun _ => ⟨_, rfl⟩
  exact looks_iteratorCf (steady_decodeWhile _ _ _) fun items => congrArg Prog.ret (scanAllLoop_eq items)

end Outbox

namespace Dm

theorem DmService.looks_resumeConversation (c : ConversationId) : Looks V (resumeConversation c) := by
  refine (looks_getRaw.mapErr _).bind fun b => ?_
  cases b with
  | none => exact ⟨_, rfl⟩
  | some v => exact ⟨_, rfl⟩

theorem DmService.looks_getMessage (c : ConversationId) (id : MessageId) : Looks V (getMessage c id) := by
  refine looks_get (fun b => ?_) fun e => ⟨_, rfl⟩
  rcases b with e | _ | v
  · exact ⟨_, rfl⟩
  · exact ⟨_, rfl⟩
  · exact lift_bind_ret (decodeMessage v) fun _ => ⟨_, rfl⟩

theorem DmService.looks_history (c : ConversationId) (before : Option MessageId) (limit : Nat) :
    Looks V (history c before limit) := by
  have hlooks : ∀ seekKey, Looks V (do
      let items ← iteratorCf .chains (.reverse seekKey)
      if HasCapacity limit then
        let results ← Prog.lift (historyLoop (makeMsgPrefix c) seekKey before limit [] items)
        pure (some results)
      else pure none : DbProg DmError _) := by
    intro seekKey
    by_cases hcap : HasCapacity limit
    · refine looks_iteratorCf ((steady_historyLoop (makeMsgPrefix c) seekKey before limit []).map some) fun items => ?_
      rw [if_pos hcap]
      cases historyLoop (makeMsgPrefix c) seekKey before limit [] items <;> rfl
    · refine looks_iteratorCf (g := fun _ => .ok none) (fun _ _ _ _ h => h) fun items => ?_
      rw [if_neg hcap]
      rfl
  exact hlooks _

theorem looks_paginateMessages {db : ZeroDb} (hdb : V db) (c : ConversationId) (before : Option MessageId) (limit : Nat) :
    Looks V (paginateMessages c before limit) := by
  by_cases hlimit : limit = 0
  · rw [hlimit]
    exact fun a ha => ⟨db, hdb, ha⟩
  · rw [paginateMessages_eq c before hlimit]
    exact DmService.looks_history c before limit

end Dm

namespace Group

theorem looks_getManifest (g : GroupId) : Looks V (getManifest g) := by
  refine (looks_getRaw.mapErr _).bind fun b => ?_
  cases b with
  | none => exact ⟨_, rfl⟩
  | some v => exact ⟨_, rfl⟩

theorem looks_loadManifest (g : GroupId) : Looks V (loadManifest g) := by
  refine (looks_getRaw.mapErr _).bind fun b => ?_
  cases b with
  | none => exact ⟨_, rfl⟩
  | some v => exact lift_bind_ret (decodeManifest v) fun _ => ⟨_, rfl⟩

theorem looks_getMessage (g : GroupId) (id : GroupMessageId) : Looks V (getMessage g id) := by
  refine (looks_getRaw.mapErr _).bind fun b => ?_
  cases b with
  | none => exact ⟨_, rfl⟩
  | some v => exact lift_bind_ret (decodeMessage v) fun _ => ⟨_, rfl⟩

theorem looks_listMessages (g : GroupId) (before : Option GroupMessageId) (limit : Nat) :
    Looks V (listMessages g before limit) := by
  have hsteady := steady_decodeWhile (makeMsgPrefix g).isPrefixOf decodeMessage fun e => .storage (.rocks e)
  refine looks_iteratorCf ((hsteady.map fun l => l.filter (isBefore before)).map fun l =>
    (l.insertionSort msgOrder).take limit) fun items => ?_
  change Prog.bind (lift (listLoop _ before items)) _ = _
  rw [listLoop_eq]
  cases decodeWhile _ decodeMessage (fun e => GroupError.storage (.rocks e)) items <;> rfl

end Group

namespace Inbox.InboxService

theorem looks_listInbox (s : InboxService) (limit : Option Nat) : Looks V (s.listInbox limit) :=
  (looks_prefixScanRaw.mapErr _).bind fun _ => ⟨_, rfl⟩

theorem looks_unreadTotal (s : InboxService) : Looks V s.unreadTotal :=
  (looks_prefixScanRaw.mapErr _).bind fun _ => ⟨_, rfl⟩

theorem looks_stats (s : InboxService) : Looks V s.stats := (looks_prefixScanRaw.mapErr _).bind fun _ => ⟨_, rfl⟩

end Inbox.InboxService

end ZeroSdk
