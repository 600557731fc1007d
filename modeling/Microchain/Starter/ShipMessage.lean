import Microchain.Starter.Contract

/-!
# State-history messages (`pushShipMessage`)

`ship_to_transactions` takes the receipt of every action trace, and the trace and the
receipt of every creator, without looking whether they are there, and it takes the
transactions without looking at their status. What a message must be like for that to
go well is `Complete` and `FailedUnhandled`; `pushShipMessage_safe_iff` says that this
is exactly what it takes.
-/

namespace Microchain.Starter

open Eosio Subchain Chainbase

/-! ## What the conversion reads -/

/-- Every action trace has a receipt, and the creator of an action is none or one of
the action traces of the transaction. -/
def Complete (trx : TransactionTrace) : Prop :=
  ∀ trace ∈ trx.actionTraces, trace.receipt.isSome ∧
    trace.creatorActionOrdinal.toNat ≤ trx.actionTraces.length

/-- The creator of an action. -/
def creatorOf (trx : TransactionTrace) (trace : ActionTrace) : Option ActionTrace :=
  if 0 < trace.creatorActionOrdinal then
    trx.actionTraces[(trace.creatorActionOrdinal - 1).toNat]?
  else none

/-- The actions of a block that `filter_block` hands to a handler. -/
def Handled (starterAccount : Name) (trx : TransactionTrace) (trace : ActionTrace) : Prop :=
  if trace.act.account = starterAccount then
    trace.act.name = Name.ofString "hi" ∨ trace.act.name = Name.ofString "clearall"
  else trace.act.account = Name.ofString "eosio.null" ∧
    trace.act.name = Name.ofString "chain.events" ∧
    (creatorOf trx trace).any (·.receiver = starterAccount)

/-- No action of a transaction that was not executed goes to a handler. -/
def FailedUnhandled (starterAccount : Name) (trx : TransactionTrace) : Prop :=
  trx.status ≠ .executed → ∀ trace ∈ trx.actionTraces, ¬ Handled starterAccount trx trace

theorem mapM_isSome_iff {α β : Type} {f : α → Option β} {l : List α} :
    (l.mapM f).isSome ↔ ∀ a ∈ l, (f a).isSome := by
  induction l with
  | nil => simp
  | cons a l ih =>
    rw [List.forall_mem_cons, ← ih, List.mapM_cons]
    cases f a with
    | none => simp
    | some b => cases l.mapM f <;> simp

/-- What holds of the images. -/
theorem forall_mem_mapM_iff {α β : Type} {f : α → Option β} {P : β → Prop} {l : List α}
    {l' : List β} (h : l.mapM f = some l') :
    (∀ b ∈ l', P b) ↔ ∀ a ∈ l, ∀ b, f a = some b → P b := by
  induction l generalizing l' with
  | nil =>
    obtain rfl : l' = [] := by simpa using h.symm
    simp
  | cons a l ih =>
    simp only [List.mapM_cons, Option.bind_eq_bind, Option.bind_eq_some_iff, Option.pure_def,
      Option.some.injEq] at h
    obtain ⟨b, hb, bs, hbs, rfl⟩ := h
    rw [List.forall_mem_cons, List.forall_mem_cons, ih hbs, hb]
    simp

/-- Below the length by one: the place that an ordinal names. -/
theorem ordinal_lt_iff {n : UInt32} {length : Nat} (hpos : 0 < n) :
    (n - 1).toNat < length ↔ n.toNat ≤ length := by
  have hle : (1 : UInt32) ≤ n := by
    rw [UInt32.lt_iff_toNat_lt] at hpos
    rw [UInt32.le_iff_toNat_le]
    exact hpos
  rw [UInt32.toNat_sub_of_le _ _ hle]
  rw [UInt32.lt_iff_toNat_lt] at hpos
  have hone : (1 : UInt32).toNat = 1 := rfl
  have hzero : (0 : UInt32).toNat = 0 := rfl
  omega

/-- **The reads of one transaction** find what they read exactly when it is complete. -/
theorem shipTransaction_isSome_iff (trx : TransactionTrace) :
    (shipTransaction trx).isSome ↔ Complete trx := by
  have hactions : (shipTransaction trx).isSome ↔
      ∀ trace ∈ trx.actionTraces, (shipAction trx trace).isSome := by
    rw [← mapM_isSome_iff, shipTransaction]
    cases trx.actionTraces.mapM (shipAction trx) <;> simp
  rw [hactions]
  constructor
  · intro h trace htrace
    have hsome := h trace htrace
    rw [shipAction] at hsome
    cases hcreator : shipCreatorAction trx trace with
    | none =>
      rw [hcreator] at hsome
      cases hsome
    | some creator =>
      rw [hcreator] at hsome
      constructor
      · cases hreceipt : trace.receipt with
        | none =>
          rw [hreceipt] at hsome
          cases hsome
        | some receipt => rfl
      · by_cases hpos : 0 < trace.creatorActionOrdinal
        · rw [← ordinal_lt_iff hpos]
          rw [shipCreatorAction, if_pos hpos] at hcreator
          by_contra hge
          rw [List.getElem?_eq_none (Nat.le_of_not_lt hge)] at hcreator
          cases hcreator
        · have hzero : trace.creatorActionOrdinal = 0 :=
            UInt32.le_zero_iff.mp (UInt32.not_lt.mp hpos)
          rw [hzero]
          exact Nat.zero_le _
  · intro h trace htrace
    obtain ⟨hreceipt, hordinal⟩ := h trace htrace
    obtain ⟨receipt, hreceipt⟩ := Option.isSome_iff_exists.mp hreceipt
    have hcreator : (shipCreatorAction trx trace).isSome := by
      rw [shipCreatorAction]
      split
      · next hpos =>
        -- the creator is an action trace, so it has a receipt itself
        have hlt := (ordinal_lt_iff hpos).mpr hordinal
        obtain ⟨receipt', hreceipt'⟩ := Option.isSome_iff_exists.mp
          (h _ (List.getElem_mem hlt)).1
        rw [List.getElem?_eq_getElem hlt]
        simp [hreceipt']
      · rfl
    obtain ⟨creator, hcreator⟩ := Option.isSome_iff_exists.mp hcreator
    rw [shipAction, hcreator, hreceipt]
    rfl

/-! ## What the block applies -/

/-- The creator of an action as the block has it. -/
theorem shipCreatorAction_any {trx : TransactionTrace} {trace : ActionTrace}
    {creator : Option CreatorAction} (h : shipCreatorAction trx trace = some creator)
    (account : Name) : creator.any (·.receiver = account) =
      (creatorOf trx trace).any (·.receiver = account) := by
  rw [shipCreatorAction] at h
  rw [creatorOf]
  split at h
  · next hpos =>
    rw [if_pos hpos]
    simp only [Option.bind_eq_bind, Option.bind_eq_some_iff, Option.some.injEq] at h
    obtain ⟨creatorTrace, hcreator, receipt, -, rfl⟩ := h
    rw [hcreator]
    rfl
  · next hpos =>
    rw [if_neg hpos]
    cases h
    rfl

/-- An action of a block goes to a handler exactly when its trace says so. -/
theorem handlerOf_shipAction {starterAccount : Name} {trx : TransactionTrace} {trace : ActionTrace}
    {action : Action} (h : shipAction trx trace = some action) :
    handlerOf starterAccount action = .ok .ignored ↔ ¬ Handled starterAccount trx trace := by
  simp only [shipAction, Option.bind_eq_bind, Option.bind_eq_some_iff, Option.some.injEq] at h
  obtain ⟨creator, hcreator, receipt, -, rfl⟩ := h
  have hany := shipCreatorAction_any hcreator starterAccount
  rw [handlerOf, Handled]
  dsimp only
  rw [hany]
  split
  · rw [dispatch]
    split
    · next hname =>
      -- a handler, or data that does not decode
      refine iff_of_false ?_ (not_not.mpr (.inl hname))
      cases nameStringFromBin trace.act.data <;> exact fun h => by cases h
    · next hhi =>
      split
      · next hclear => exact iff_of_false (fun h => by cases h) (not_not.mpr (.inr hclear))
      · next hclear => exact iff_of_true rfl fun hname => hname.elim hhi hclear
  · split
    · next hevents =>
      refine iff_of_false ?_ (not_not.mpr hevents)
      cases vectorFromBin eventFromBin trace.act.data <;> exact fun h => by cases h
    · next hevents => exact iff_of_true rfl hevents

/-! ## The message -/

/-- No read of `pushShipMessage` fails, and the block that it builds hands no action of
a transaction that was not executed to a handler. -/
structure PushesSafely (sha256 : Bytes → Checksum256) (m : MicroChain)
    (message : Except String ShipResult) : Prop where
  reads : ((Call.pushShipMessage message).exec sha256 m).1 ≠ .error .undefined
  applies : ∀ r thisBlock transactions, message = .ok (.getBlocksResult r) →
    r.thisBlock = some thisBlock → shipToTransactions r.traces = some transactions →
    List.Forall₂ (fun trx transaction => trx.status ≠ .executed →
      ∀ action ∈ transaction.actions, handlerOf m.starterAccount action = .ok .ignored)
      r.traces (MicroChain.shipEosioBlock r thisBlock transactions).transactions

/-- Adding a block reads no receipt. -/
theorem addBlockWithId_ne_undefined (m : MicroChain) (bi : BlockWithId) (irreversible : UInt32) :
    (m.addBlockWithId bi irreversible).1 ≠ .error .undefined := by
  rw [MicroChain.addBlockWithId]
  split
  · dsimp only
    split
    · exact fun h => by cases h
    · split
      · exact fun h => by cases h
      · split <;> exact fun h => by cases h
  · exact fun h => by cases h

/-- What the block applies of one transaction. -/
theorem applies_iff {starterAccount : Name} {trx : TransactionTrace} {transaction : Transaction}
    (h : shipTransaction trx = some transaction) :
    (∀ action ∈ transaction.actions, handlerOf starterAccount action = .ok .ignored) ↔
      ∀ trace ∈ trx.actionTraces, ¬ Handled starterAccount trx trace := by
  simp only [shipTransaction, Option.bind_eq_bind, Option.bind_eq_some_iff, Option.some.injEq] at h
  obtain ⟨actions, hactions, rfl⟩ := h
  rw [forall_mem_mapM_iff hactions]
  constructor
  · intro h trace htrace
    have hsome := mapM_isSome_iff.mp (by rw [hactions]; rfl) trace htrace
    obtain ⟨action, haction⟩ := Option.isSome_iff_exists.mp hsome
    exact (handlerOf_shipAction haction).mp (h trace htrace action haction)
  · intro h trace htrace action haction
    exact (handlerOf_shipAction haction).mpr (h trace htrace)

/-- **When a state-history message is pushed safely**: exactly when it carries no block,
or every transaction of the block is complete and those that were not executed have no
action for a handler. -/
theorem pushShipMessage_safe_iff (sha256 : Bytes → Checksum256) (m : MicroChain)
    (message : Except String ShipResult) :
    PushesSafely sha256 m message ↔
      ∀ r, message = .ok (.getBlocksResult r) → r.thisBlock.isSome →
        ∀ trx ∈ r.traces, Complete trx ∧ FailedUnhandled m.starterAccount trx := by
  constructor
  · rintro ⟨hreads, happlies⟩ r rfl hblock trx htrx
    obtain ⟨thisBlock, hblock⟩ := Option.isSome_iff_exists.mp hblock
    -- a read that failed would have ended the call
    cases hship : shipToTransactions r.traces with
    | none =>
      refine absurd ?_ hreads
      simp only [Call.exec, MicroChain.decoding, MicroChain.addShipResult, hblock, hship]
    | some transactions =>
      have hsome := mapM_isSome_iff.mp (by rw [← shipToTransactions, hship]; rfl) trx htrx
      have hcomplete := (shipTransaction_isSome_iff trx).mp hsome
      obtain ⟨transaction, htransaction⟩ := Option.isSome_iff_exists.mp hsome
      refine ⟨hcomplete, fun hstatus => (applies_iff htransaction).mp ?_⟩
      exact (forall₂_mapM_iff hship).mp (happlies r thisBlock transactions rfl hblock hship)
        trx htrx transaction htransaction hstatus
  · intro h
    constructor
    · cases message with
      | error e => exact fun h => by cases h
      | ok result =>
        cases result with
        | getStatusResult => exact fun h => by cases h
        | getBlocksResult r =>
          simp only [Call.exec, MicroChain.decoding, MicroChain.addShipResult]
          split
          · exact fun h => by cases h
          · next thisBlock hblock =>
            have hsome : (shipToTransactions r.traces).isSome := mapM_isSome_iff.mpr fun trx htrx =>
              (shipTransaction_isSome_iff trx).mpr (h r rfl (by rw [hblock]; rfl) trx htrx).1
            obtain ⟨transactions, hship⟩ := Option.isSome_iff_exists.mp hsome
            rw [hship]
            exact addBlockWithId_ne_undefined _ _ _
    · rintro r thisBlock transactions rfl hblock hship
      refine (forall₂_mapM_iff hship).mpr fun trx htrx transaction htransaction hstatus => ?_
      have hfailed := (h r rfl (by rw [hblock]; rfl) trx htrx).2
      exact (applies_iff htransaction).mpr (hfailed hstatus)

/-! ## Failed transactions -/

/-- A deferred transaction that failed softly: its action was not executed and has no
receipt. -/
def softFailed : GetBlocksResult where
  thisBlock := some { blockNum := 5 }
  traces := [{
    status := .softFail
    actionTraces := [{ actionOrdinal := 1, receiver := Name.ofString "starter" }] }]

/-- A transaction that failed after its first action, a `hi`, which has a receipt. -/
def hardFailed : GetBlocksResult where
  thisBlock := some { blockNum := 5 }
  traces := [{
    status := .hardFail
    actionTraces := [traceOf 1 0 1 "starter" "hi" (nameToBin (Name.ofString "bob") ++ [1, 65])] }]

/-- Neither message is pushed safely: one ends in a read of a missing receipt, and the
block of the other one greets in the name of `bob`. -/
theorem failed_not_safe :
    ¬ PushesSafely (fun _ => {}) { starterAccount := Name.ofString "starter" }
      (.ok (.getBlocksResult softFailed)) ∧
    ¬ PushesSafely (fun _ => {}) { starterAccount := Name.ofString "starter" }
      (.ok (.getBlocksResult hardFailed)) := by
  constructor
  · intro h
    exact h.reads (by rfl)
  · intro h
    have happlies := h.applies hardFailed { blockNum := 5 } _ rfl rfl rfl
    cases happlies with
    | cons h _ => exact absurd (h nofun _ (List.mem_singleton_self _)) (by decide +kernel)

end Microchain.Starter
