import Microchain.Lib.Except
import Microchain.Lib.LastWrite
import Microchain.Starter.Replay

/-!
# The contract and the micro chain (`starter.cpp`)

The contract's `hi` on its own greeting table, run on the actions of a block in
the order of their global sequence numbers, against the micro chain's `hi`, run on
the same actions in the order in which the state history lists them.

Both tables are maps written by the same writes in two orders, so they agree after
a block exactly when no account's last write differs between the two orders
(`ship_agrees_iff`). An inline action is listed when it is created and runs before
the later siblings of its creator, so there are blocks where they differ
(`ship_disagrees`).
-/

namespace Microchain.Starter

open Eosio Subchain Chainbase BlockLog Lib

/-! ## The contract -/

/-- `greeting_table`: the rows by primary key. -/
abbrev GreetingTb := Name → Option Greeting

/-- The message stored for each account. -/
def GreetingTb.messages (greetingTb : GreetingTb) : Name → Option Bytes :=
  fun account => (greetingTb account).map (·.message)

/-- `starter_contract::hi`. The event it pushes stays in the instance. -/
def contractHi (requireAuth : Name → Bool) (greetingTb : GreetingTb) (account : Name)
    (message : Bytes) : Except String GreetingTb :=
  if requireAuth account then
    if message.length ≤ 256 then
      match greetingTb account with
      | none => .ok (Function.update greetingTb account (some { account, message }))
      | some row => .ok (Function.update greetingTb account (some { row with message }))
    else .error "message is too long"
  else .error "missing authority"

/-- `eosio_apply` -/
def eosioApply (requireAuth : Name → Bool) (greetingTb : GreetingTb) (receiver : Name)
    (act : ShipAction) : Except String GreetingTb :=
  if act.account = receiver then
    if act.name = Name.ofString "hi" then do
      let ((account, message), _) ← nameStringFromBin act.data
      contractHi requireAuth greetingTb account message
    else .error "unknown action"
  else .ok greetingTb

/-- The contract's account executes the actions it receives, in this order. -/
def contractRun (self : Name) (requireAuth : ActionTrace → Name → Bool) (greetingTb : GreetingTb) :
    List ActionTrace → Except String GreetingTb
  | [] => .ok greetingTb
  | trace :: traces =>
    if trace.receiver = self then do
      let greetingTb ← eosioApply (requireAuth trace) greetingTb self trace.act
      contractRun self requireAuth greetingTb traces
    else contractRun self requireAuth greetingTb traces

/-! ## Blocks -/

/-- The action traces of a block, as listed. -/
def listed (traces : List TransactionTrace) : List ActionTrace := traces.flatMap (·.actionTraces)

def globalSequence (trace : ActionTrace) : UInt64 := (trace.receipt.getD {}).globalSequence

/-- The action traces of a block in execution order. -/
def executed (traces : List TransactionTrace) : List ActionTrace :=
  sortBy (fun a b => decide (globalSequence a < globalSequence b)) (listed traces)

/-- A transaction trace as nodeos lists it: the actions by ordinal, each created by
an earlier one. -/
structure OrdinalOrder (trace : TransactionTrace) : Prop where
  executed : trace.status = .executed
  ordinal : ∀ i (hi : i < trace.actionTraces.length),
    (trace.actionTraces[i]).actionOrdinal.toNat = i + 1
  creator : ∀ i (hi : i < trace.actionTraces.length),
    (trace.actionTraces[i]).creatorActionOrdinal.toNat ≤ i
  receipt : ∀ a ∈ trace.actionTraces, a.receipt.isSome

/-- A block of executed transactions that takes the contract's table from `before` to
`after`. The contract notifies no other account of its actions. -/
structure ExecutedBlock (starterAccount : Name) (requireAuth : ActionTrace → Name → Bool)
    (before after : GreetingTb) (traces : List TransactionTrace) : Prop where
  ordinals : ∀ trace ∈ traces, OrdinalOrder trace
  sequences : ((listed traces).map globalSequence).Nodup
  notified : ∀ a ∈ listed traces, a.act.account = starterAccount → a.receiver = starterAccount
  run : contractRun starterAccount requireAuth before (executed traces) = .ok after

/-- What a `hi` action writes. -/
def hiOf (self : Name) (act : ShipAction) : Option (Name × Bytes) :=
  if act.account = self ∧ act.name = Name.ofString "hi" then
    (nameStringFromBin act.data).toOption.map Prod.fst
  else none

/-- What the `hi` actions write, in order. -/
def hiWrites (self : Name) (traces : List ActionTrace) : List (Name × Bytes) :=
  traces.filterMap fun a => hiOf self a.act

theorem contractHi_ok {requireAuth : Name → Bool} {t t' : GreetingTb} {account : Name}
    {message : Bytes} (h : contractHi requireAuth t account message = .ok t') :
    t'.messages = Function.update t.messages account (some message) := by
  have hupdate : ∀ row : Greeting, row.message = message →
      GreetingTb.messages (Function.update t account (some row)) =
        Function.update t.messages account (some message) := by
    intro row hrow
    funext a
    by_cases ha : a = account
    · subst ha
      simp [GreetingTb.messages, hrow]
    · simp [GreetingTb.messages, Function.update_of_ne ha]
  rw [contractHi] at h
  split at h
  · split at h
    · split at h
      · exact Except.ok.inj h ▸ hupdate _ rfl
      · exact Except.ok.inj h ▸ hupdate _ rfl
    · cases h
  · cases h

/-- **The contract's table after actions** is written by their `hi` writes. -/
theorem contractRun_ok {self : Name} {requireAuth : ActionTrace → Name → Bool} {t t' : GreetingTb}
    {traces : List ActionTrace} (hnotified : ∀ a ∈ traces, a.act.account = self → a.receiver = self)
    (h : contractRun self requireAuth t traces = .ok t') :
    t'.messages = store t.messages (hiWrites self traces) ∧
      ∀ a ∈ traces, a.act.account = self → a.act.name = Name.ofString "hi" := by
  induction traces generalizing t with
  | nil =>
    obtain rfl := Except.ok.inj h
    exact ⟨rfl, by simp⟩
  | cons a traces ih =>
    obtain ⟨ha, hnotified⟩ := List.forall_mem_cons.mp hnotified
    rw [contractRun] at h
    -- an action of another account does not write, whoever receives it
    by_cases haccount : a.act.account = self
    · rw [if_pos (ha haccount), eosioApply, if_pos haccount] at h
      by_cases hname : a.act.name = Name.ofString "hi"
      · rw [if_pos hname] at h
        obtain ⟨t₁, happly, h⟩ := ok_of_bind h
        obtain ⟨⟨⟨account, message⟩, rest⟩, hdecode, hhi⟩ := ok_of_bind happly
        obtain ⟨hstore, hnames⟩ := ih hnotified h
        have hwrite : hiOf self a.act = some (account, message) := by
          simp [hiOf, haccount, hname, hdecode, Except.toOption]
        refine ⟨?_, List.forall_mem_cons.mpr ⟨fun _ => hname, hnames⟩⟩
        rw [hstore, contractHi_ok hhi]
        simp only [hiWrites, List.filterMap_cons, hwrite]
        rfl
      · rw [if_neg hname] at h
        cases h
    · have hrest : contractRun self requireAuth t traces = .ok t' := by
        split at h
        · rw [eosioApply, if_neg haccount] at h
          exact h
        · exact h
      obtain ⟨hstore, hnames⟩ := ih hnotified hrest
      refine ⟨?_, List.forall_mem_cons.mpr ⟨fun heq => absurd heq haccount, hnames⟩⟩
      have hwrite : hiOf self a.act = none := by simp [hiOf, haccount]
      rw [hstore]
      simp only [hiWrites, List.filterMap_cons, hwrite]

/-! ## The micro chain's table after a block -/

/-- What an action of a block writes. -/
def handlerWrite (starterAccount : Name) (action : Action) : Option (Name × Bytes) :=
  match handlerOf starterAccount action with
  | .ok (.hi account message) => some (account, message)
  | _ => none

/-- No two rows for one account, and ids below the next one. -/
structure Keyed (s : Snapshot Greeting) : Prop where
  distinct : s.Distinct [orderedByPk]
  bounded : Bounded s

theorem Keyed.messageOf_eq_some {s : Snapshot Greeting} (h : Keyed s) {account : Name}
    {message : Bytes} :
    messageOf s account = some message ↔ ∃ id, s.row id = some ⟨account, message⟩ := by
  constructor
  · intro hmessage
    obtain ⟨obj, hobj, rfl⟩ := Option.map_eq_some_iff.mp hmessage
    obtain ⟨hmem, rfl⟩ := rowOf_mem hobj
    exact ⟨obj.id, (Snapshot.mem_rows.mp hmem).2⟩
  · rintro ⟨id, hrow⟩
    have hmem : (⟨id, ⟨account, message⟩⟩ : Object Greeting) ∈ s.rows :=
      Snapshot.mem_rows.mpr ⟨h.bounded _ _ hrow, hrow⟩
    rw [messageOf]
    cases hfind : rowOf s account with
    | none => exact absurd rfl (rowOf_eq_none.mp hfind _ hmem)
    | some obj =>
      obtain ⟨hmem', haccount⟩ := rowOf_mem hfind
      rw [account_unique h.distinct hmem' hmem haccount]
      rfl

/-- The rows after `hi`: the new one, and those of the other accounts. -/
theorem Keyed.hiSnapshot_row {s : Snapshot Greeting} (h : Keyed s) (value v : Greeting) (id : Nat) :
    (hiSnapshot s value).row id = some v ↔
      id = s.nextId ∧ value = v ∨ s.row id = some v ∧ v.account ≠ value.account := by
  have hnew : s.row s.nextId = none := by
    cases hrow : s.row s.nextId with
    | none => rfl
    | some w => exact absurd (h.bounded _ _ hrow) (Nat.lt_irrefl _)
  rw [hiSnapshot]
  -- a first greeting adds a row, a later one also removes the row before it
  cases hfind : rowOf s value.account with
  | none =>
    simp only [emplace_row]
    split
    · next hid => simp [hid, hnew]
    · next hid =>
      have hother : s.row id = some v → v.account ≠ value.account := fun hrow =>
        rowOf_eq_none.mp hfind ⟨id, v⟩ (Snapshot.mem_rows.mpr ⟨h.bounded id v hrow, hrow⟩)
      simpa [hid] using hother
  | some obj =>
    obtain ⟨hmem, haccount⟩ := rowOf_mem hfind
    have hobj := (Snapshot.mem_rows.mp hmem).2
    simp only [emplace_row]
    rw [show (s.remove obj.id).nextId = s.nextId from rfl, remove_row]
    split
    · next hid => simp [hid, hnew]
    · next hid =>
      split
      · next hid' =>
        refine iff_of_false (by simp) ?_
        rintro (⟨heq, -⟩ | ⟨hrow, hne⟩)
        · exact hid heq
        · rw [hid', hobj] at hrow
          obtain rfl := Option.some.inj hrow
          exact hne haccount
      · next hid' =>
        have hother : s.row id = some v → v.account ≠ value.account := fun hrow heq =>
          distinct_iff.mp h.distinct id obj.id v obj.value hrow hobj hid' (heq.trans haccount.symm)
        simpa [hid] using hother

theorem Keyed.hiSnapshot {s : Snapshot Greeting} (h : Keyed s) (value : Greeting) :
    Keyed (hiSnapshot s value) := by
  have hnext : (Starter.hiSnapshot s value).nextId = s.nextId + 1 := by
    rw [Starter.hiSnapshot]
    split <;> rfl
  refine ⟨distinct_iff.mpr fun p q v w hp hq hne => ?_, fun id v hrow => ?_⟩
  · rcases (h.hiSnapshot_row value v p).mp hp with ⟨rfl, rfl⟩ | ⟨hp, hv⟩
    · rcases (h.hiSnapshot_row _ w q).mp hq with ⟨rfl, rfl⟩ | ⟨hq, hw⟩
      · exact absurd rfl hne
      · exact hw.symm
    · rcases (h.hiSnapshot_row value w q).mp hq with ⟨rfl, rfl⟩ | ⟨hq, hw⟩
      · exact hv
      · exact distinct_iff.mp h.distinct p q v w hp hq hne
  · rw [hnext]
    rcases (h.hiSnapshot_row value v id).mp hrow with ⟨rfl, -⟩ | ⟨hrow, -⟩
    · exact Nat.lt_succ_self _
    · exact Nat.lt_succ_of_lt (h.bounded id v hrow)

/-- **hi** writes the account's message. -/
theorem Keyed.messageOf_hiSnapshot {s : Snapshot Greeting} (h : Keyed s) (account : Name)
    (message : Bytes) : messageOf (Starter.hiSnapshot s ⟨account, message⟩) =
      Function.update (messageOf s) account (some message) := by
  funext a
  refine Option.ext fun m => ?_
  rw [(h.hiSnapshot _).messageOf_eq_some]
  simp only [h.hiSnapshot_row]
  by_cases ha : a = account
  · subst ha
    simp
  · rw [Function.update_of_ne ha, h.messageOf_eq_some]
    simp [ha, Ne.symm ha]

/-- The handler of an action on the contract that is called `hi`. -/
theorem handlerOf_hi {starterAccount : Name} {action : Action}
    (hfirst : action.firstReceiver = starterAccount) (hname : action.name = Name.ofString "hi") :
    handlerOf starterAccount action =
      (nameStringFromBin action.hexData).map fun r => Handler.hi r.1.1 r.1.2 := by
  rw [handlerOf, if_pos hfirst, dispatch, if_pos hname]
  cases nameStringFromBin action.hexData <;> rfl

/-- The handler of an action that is no `hi` writes nothing. -/
theorem handlerWrite_of_not_hi {starterAccount : Name} {action : Action}
    (hhi : ¬ (action.firstReceiver = starterAccount ∧ action.name = Name.ofString "hi")) :
    handlerWrite starterAccount action = none := by
  rw [handlerWrite, handlerOf]
  split
  · next account message heq =>
    split at heq
    · next hfirst =>
      rw [dispatch, if_neg fun hname => hhi ⟨hfirst, hname⟩] at heq
      split at heq <;> cases heq
    · split at heq
      · cases hv : vectorFromBin eventFromBin action.hexData <;> rw [hv] at heq <;> cases heq
      · cases heq
  · rfl

theorem handlerOf_clearall {starterAccount : Name} {action : Action}
    (hclear : handlerOf starterAccount action = .ok .clearall) :
    action.firstReceiver = starterAccount ∧ action.name ≠ Name.ofString "hi" := by
  by_cases hfirst : action.firstReceiver = starterAccount
  · refine ⟨hfirst, fun hname => ?_⟩
    rw [handlerOf_hi hfirst hname] at hclear
    cases hdecode : nameStringFromBin action.hexData <;> rw [hdecode] at hclear <;> cases hclear
  · rw [handlerOf, if_neg hfirst] at hclear
    split at hclear
    · cases hv : vectorFromBin eventFromBin action.hexData <;> rw [hv] at hclear <;> cases hclear
    · cases hclear

/-- One action that is no `clearall`. -/
theorem Keyed.filterActionSnapshot {starterAccount : Name} {s : Snapshot Greeting} (h : Keyed s)
    {action : Action}
    (hname : action.firstReceiver = starterAccount → action.name = Name.ofString "hi") :
    Keyed (filterActionSnapshot starterAccount s action) ∧
      messageOf (filterActionSnapshot starterAccount s action) =
        store (messageOf s) (handlerWrite starterAccount action).toList := by
  rw [Starter.filterActionSnapshot, handlerWrite]
  cases hhandler : handlerOf starterAccount action with
  | error e => exact ⟨h, rfl⟩
  | ok handler =>
    cases handler with
    | hi account message => exact ⟨h.hiSnapshot _, h.messageOf_hiSnapshot account message⟩
    | clearall =>
      obtain ⟨hfirst, hne⟩ := handlerOf_clearall hhandler
      exact absurd (hname hfirst) hne
    | events events => exact ⟨h, rfl⟩
    | ignored => exact ⟨h, rfl⟩

/-- **A block whose actions on the contract are all `hi`** writes their messages. -/
theorem Keyed.foldl_filterActionSnapshot {starterAccount : Name} {actions : List Action}
    {s : Snapshot Greeting} (h : Keyed s)
    (hnames : ∀ a ∈ actions, a.firstReceiver = starterAccount → a.name = Name.ofString "hi") :
    messageOf (actions.foldl (Starter.filterActionSnapshot starterAccount) s) =
      store (messageOf s) (actions.filterMap (handlerWrite starterAccount)) := by
  induction actions generalizing s with
  | nil => rfl
  | cons action actions ih =>
    obtain ⟨hname, hnames⟩ := List.forall_mem_cons.mp hnames
    obtain ⟨hkeyed, hmessages⟩ := h.filterActionSnapshot hname
    have hwrites : (action :: actions).filterMap (handlerWrite starterAccount) =
        (handlerWrite starterAccount action).toList ++
          actions.filterMap (handlerWrite starterAccount) := by
      cases hw : handlerWrite starterAccount action <;> simp [hw]
    rw [List.foldl_cons, ih hkeyed hnames, hmessages, hwrites, store_append]

/-! ## The listed actions -/

/-- An action of a block as its trace has it. -/
def Matches (trace : ActionTrace) (action : Action) : Prop :=
  action.firstReceiver = trace.act.account ∧ action.name = trace.act.name ∧
    action.hexData = trace.act.data

theorem shipAction_matches {trx : TransactionTrace} {trace : ActionTrace} {action : Action}
    (h : shipAction trx trace = some action) : Matches trace action := by
  simp only [shipAction, Option.bind_eq_bind, Option.bind_eq_some_iff, Option.some.injEq] at h
  obtain ⟨_, -, _, -, rfl⟩ := h
  exact ⟨rfl, rfl, rfl⟩

/-- What holds along a list and its images. -/
theorem forall₂_mapM_iff {α β : Type} {f : α → Option β} {P : α → β → Prop} {l : List α}
    {l' : List β} (h : l.mapM f = some l') :
    List.Forall₂ P l l' ↔ ∀ a ∈ l, ∀ b, f a = some b → P a b := by
  induction l generalizing l' with
  | nil =>
    obtain rfl : l' = [] := by simpa using h.symm
    simp
  | cons a l ih =>
    simp only [List.mapM_cons, Option.bind_eq_bind, Option.bind_eq_some_iff, Option.pure_def,
      Option.some.injEq] at h
    obtain ⟨b, hb, bs, hbs, rfl⟩ := h
    rw [List.forall₂_cons, List.forall_mem_cons, ih hbs, hb]
    simp

theorem forall_mem_of_forall₂ {α β : Type} {R : α → β → Prop} {P : β → Prop} {l : List α}
    {l' : List β} (h : List.Forall₂ R l l') (hP : ∀ a ∈ l, ∀ b, R a b → P b) : ∀ b ∈ l', P b := by
  induction h with
  | nil => simp
  | cons hab _ ih =>
    obtain ⟨ha, hP⟩ := List.forall_mem_cons.mp hP
    exact List.forall_mem_cons.mpr ⟨ha _ hab, ih hP⟩

/-- `ship_to_transactions` keeps the order of the traces. -/
theorem shipToTransactions_matches {traces : List TransactionTrace} {trxs : List Transaction}
    (h : shipToTransactions traces = some trxs) :
    List.Forall₂ Matches (listed traces) (trxs.flatMap (·.actions)) := by
  have htrxs : List.Forall₂ (fun (trace : TransactionTrace) (trx : Transaction) =>
      List.Forall₂ Matches trace.actionTraces trx.actions) traces trxs := by
    refine (forall₂_mapM_iff h).mpr fun trace _ trx htrx => ?_
    simp only [shipTransaction, Option.bind_eq_bind, Option.bind_eq_some_iff,
      Option.some.injEq] at htrx
    obtain ⟨actions, hactions, rfl⟩ := htrx
    exact (forall₂_mapM_iff hactions).mpr fun a _ b => shipAction_matches
  clear h
  induction htrxs with
  | nil => exact .nil
  | cons hactions _ ih =>
    rw [listed, List.flatMap_cons, List.flatMap_cons]
    exact List.rel_append hactions ih

theorem handlerWrite_eq_hiOf {self : Name} {trace : ActionTrace} {action : Action}
    (h : Matches trace action) : handlerWrite self action = hiOf self trace.act := by
  obtain ⟨hfirst, hname, hdata⟩ := h
  rw [hiOf, ← hfirst, ← hname, ← hdata]
  split
  · next hhi =>
    rw [handlerWrite, handlerOf_hi hhi.1 hhi.2]
    cases nameStringFromBin action.hexData <;> rfl
  · next hhi => exact handlerWrite_of_not_hi hhi

/-- The writes of a block are those of its traces, in the listed order. -/
theorem filterMap_handlerWrite {self : Name} {traces : List ActionTrace} {actions : List Action}
    (h : List.Forall₂ Matches traces actions) :
    actions.filterMap (handlerWrite self) = hiWrites self traces := by
  induction h with
  | nil => rfl
  | cons hmatch _ ih =>
    rw [hiWrites, List.filterMap_cons, List.filterMap_cons, handlerWrite_eq_hiOf hmatch, ih]
    rfl

/-! ## The two tables -/

/-- The message that `db.greetings` has for each account. -/
def messages (table : GreetingIndex) : Name → Option Bytes :=
  fun account => (findByPk table account).map (·.value.message)

/-- The contract's table agrees with the micro chain's. -/
def Agrees (greetingTb : GreetingTb) (table : GreetingIndex) : Prop :=
  ∀ account, greetingTb.messages account = messages table account

/-- For every account the last `hi` of the listing says what the last executed `hi`
says. -/
def SameLastHi (self : Name) (traces : List TransactionTrace) : Prop :=
  ∀ account, lastWrite (hiWrites self (listed traces)) account =
    lastWrite (hiWrites self (executed traces)) account

theorem TableRefines.messages_eq {u : GreetingIndex} {t : SnapshotTable Greeting}
    (h : TableRefines u t) : messages u = messageOf t.current := by
  funext account
  rw [messages, h.findByPk]
  rfl

theorem TableRefines.keyed {u : GreetingIndex} {t : SnapshotTable Greeting}
    (h : TableRefines u t) : Keyed t.current := ⟨h.distinct, h.bounded⟩

/-- What `pushShipMessage` appends is a block with the listed actions. -/
theorem pushShipMessage_ok {sha256 : Bytes → Checksum256} {m m' : MicroChain}
    {r : GetBlocksResult}
    (h : (Call.pushShipMessage (.ok (.getBlocksResult r))).exec sha256 m = (.ok true, m')) :
    ∃ (result : ResultBuffer) (bi : BlockWithId),
      ({ m with result } : MicroChain).addBlockWithId bi r.lastIrreversible.blockNum =
        (.ok true, m') ∧
      List.Forall₂ Matches (listed r.traces) (blockActions bi.eosioBlock) := by
  simp only [Call.exec, MicroChain.decoding, MicroChain.addShipResult] at h
  split at h
  · cases h
  · split at h
    · cases h
    · next thisBlock _ _ trxs htrxs =>
      refine ⟨_, _, h, ?_⟩
      rw [MicroChain.withId, nextBlock_eosioBlock]
      exact shipToTransactions_matches htrxs

/-- The contract's table and the micro chain's after a block, when they agree before
it: they are written by the same writes in two orders. -/
theorem agrees_iff {self : Name} {requireAuth : ActionTrace → Name → Bool}
    {before after : GreetingTb} {traces : List TransactionTrace}
    (hblock : ExecutedBlock self requireAuth before after traces) {u u' : GreetingIndex}
    {t t' : SnapshotTable Greeting} (hu : TableRefines u t) (hu' : TableRefines u' t')
    {block : EosioBlock} (hactions : List.Forall₂ Matches (listed traces) (blockActions block))
    (hfilter : t'.current = filterSnapshot self t.current block) (hbefore : Agrees before u) :
    Agrees after u' ↔ SameLastHi self traces := by
  have hperm : (executed traces).Perm (listed traces) := sortBy_perm _ _
  obtain ⟨hafter, hnames⟩ := contractRun_ok
    (fun a ha => hblock.notified a (hperm.mem_iff.mp ha)) hblock.run
  have hchain : messages u' = store (messages u) (hiWrites self (listed traces)) := by
    rw [hu'.messages_eq, hfilter, hu.messages_eq, ← filterMap_handlerWrite hactions]
    refine hu.keyed.foldl_filterActionSnapshot
      (forall_mem_of_forall₂ hactions fun trace htrace action hmatch hfirst => ?_)
    rw [hmatch.2.1]
    exact hnames trace (hperm.mem_iff.mpr htrace) (hmatch.1 ▸ hfirst)
  have hmessages : before.messages = messages u := funext hbefore
  have hwrites : (hiWrites self (executed traces)).Perm (hiWrites self (listed traces)) :=
    hperm.filterMap _
  rw [Agrees, hafter, hchain, hmessages, SameLastHi]
  exact (store_eq_iff (messages u) hwrites).trans (forall_congr' fun account => eq_comm)

/-! ### A block with an inline action that overtakes -/

/-- An action trace. -/
def traceOf (ordinal creator : UInt32) (sequence : UInt64) (account name : String) (data : Bytes) :
    ActionTrace where
  actionOrdinal := ordinal
  creatorActionOrdinal := creator
  receipt := some { globalSequence := sequence }
  receiver := Name.ofString account
  act := { account := Name.ofString account, name := Name.ofString name, data }

/-- `proxy` sends two inline actions: `relay`, and then a `hi` of `bob`. The `hi` that
`relay` sends is created last, and runs before the other one. -/
def nestedTraces : List TransactionTrace :=
  [{ actionTraces :=
      [traceOf 1 0 1 "proxy" "run" [], traceOf 2 1 2 "relay" "run" [],
        traceOf 3 1 4 "starter" "hi" (nameToBin (Name.ofString "bob") ++ [1, 65]),
        traceOf 4 2 3 "starter" "hi" (nameToBin (Name.ofString "bob") ++ [1, 66])] }]

/-- The block of these transactions, and the contract's table after it. -/
def nestedResult : GetBlocksResult :=
  { thisBlock := some { blockNum := 5 }, traces := nestedTraces }

def nestedAfter : GreetingTb :=
  Function.update (Function.update (fun _ => none) (Name.ofString "bob")
      (some ⟨Name.ofString "bob", [66]⟩))
    (Name.ofString "bob") (some ⟨Name.ofString "bob", [65]⟩)

theorem nested_executed : ExecutedBlock (Name.ofString "starter") (fun _ _ => true)
    (fun _ => none) nestedAfter nestedTraces := by
  refine ⟨?_, by decide, by decide, rfl⟩
  intro trace htrace
  obtain rfl := List.mem_singleton.mp htrace
  exact ⟨rfl, by decide, by decide, by decide⟩

/-- **When the micro chain follows the contract**: after a block that the state history
feeds, the tables agree again exactly when no account's last listed `hi` differs from
its last executed one. -/
theorem ship_agrees_iff (sha256 : Bytes → Checksum256) (starterAccount : Name)
    (calls : List Call) (hrun : (ChainRun.start starterAccount).Unaborted sha256 calls)
    (requireAuth : ActionTrace → Name → Bool) (before after : GreetingTb) (r : GetBlocksResult)
    (hblock : ExecutedBlock starterAccount requireAuth before after r.traces) (m' : MicroChain) :
    let m := ((ChainRun.start starterAccount).run sha256 calls).chain
    (Call.pushShipMessage (.ok (.getBlocksResult r))).exec sha256 m = (.ok true, m') →
      Agrees before (ChainInv.tableBefore m m') →
      (Agrees after m'.db.greetings ↔ SameLastHi starterAccount r.traces) := by
  intro m hpush hbefore
  have h : ChainInv starterAccount _ m :=
    ChainRun.run_inv (ChainRun.inv_start starterAccount) hrun
  obtain ⟨result, bi, hexec, hactions⟩ := pushShipMessage_ok hpush
  obtain ⟨t, t', ht, ht', hfilter⟩ := (h.setResult result).addBlockWithId_ok hexec
  exact agrees_iff hblock ht ht' hactions hfilter hbefore

theorem ship_agrees_iff_example : ∃ m',
    (Call.pushShipMessage (.ok (.getBlocksResult nestedResult))).exec (fun _ => {})
        { starterAccount := Name.ofString "starter" } = (.ok true, m') ∧
      (Agrees nestedAfter m'.db.greetings ↔ SameLastHi (Name.ofString "starter") nestedTraces) :=
  ⟨_, rfl, ship_agrees_iff (fun _ => {}) (Name.ofString "starter") [] trivial (fun _ _ => true)
    (fun _ => none) nestedAfter nestedResult nested_executed _ rfl fun _ => rfl⟩

/-- The tables need not agree after a block, even when every step of it is in order. -/
theorem ship_disagrees : ¬ ∀ (sha256 : Bytes → Checksum256) (starterAccount : Name)
    (calls : List Call), (ChainRun.start starterAccount).Unaborted sha256 calls →
    ∀ (requireAuth : ActionTrace → Name → Bool) (before after : GreetingTb) (r : GetBlocksResult),
      ExecutedBlock starterAccount requireAuth before after r.traces → ∀ m' : MicroChain,
      let m := ((ChainRun.start starterAccount).run sha256 calls).chain
      (Call.pushShipMessage (.ok (.getBlocksResult r))).exec sha256 m = (.ok true, m') →
        Agrees before (ChainInv.tableBefore m m') → Agrees after m'.db.greetings := by
  intro h
  have hagree := h (fun _ => {}) (Name.ofString "starter") [] trivial (fun _ _ => true)
    (fun _ => none) nestedAfter nestedResult nested_executed _ rfl (fun account => rfl)
    (Name.ofString "bob")
  exact absurd hagree (by decide)

end Microchain.Starter
