import Microchain.Box.Storage

/-!
# The dfuse receiver (`dfuse-receiver.ts`)

dfuse sends one message for each transaction, with the block it is in; there is no
message for a block. The receiver keeps the transactions of the latest block back
until a message of a different block, or one with the other undo flag, comes, and
only then pushes the block to the storage or undoes it.

Ids, names, timestamps and data are the values that their texts in the messages stand
for, and a JSON block is handed to the storage as the value that its text decodes to.
-/

namespace Microchain.Box

open Eosio Subchain Starter

/-! ## Messages -/

/-- `JsonTrx.block` -/
structure JsonBlock where
  num : UInt32 := 0
  id : Checksum256 := {}
  timestamp : TimePoint := {}
  previous : Checksum256 := {}
deriving DecidableEq, Repr

/-- An entry of `matchingActions`. -/
structure JsonAction where
  seq : UInt64 := 0
  receiver : Name := {}
  account : Name := {}
  name : Name := {}
  creatorAction : Option CreatorAction := none
  hexData : Bytes := []
deriving DecidableEq, Repr

/-- `JsonTrx.trace` -/
structure JsonTrace where
  id : Checksum256 := {}
  matchingActions : List JsonAction := []
deriving DecidableEq, Repr

/-- `JsonTrx`. A message without a trace is a marker: no transaction of the block
matched the query. -/
structure JsonTrx where
  undo : Bool := false
  irreversibleBlockNum : UInt32 := 0
  block : JsonBlock := {}
  trace : Option JsonTrace := none
deriving DecidableEq, Repr

/-- What `pushTrx` makes of one action. -/
def JsonAction.toAction (a : JsonAction) : Action where
  seq := a.seq
  firstReceiver := a.account
  receiver := a.receiver
  name := a.name
  creatorAction := a.creatorAction
  hexData := a.hexData

/-- What `pushTrx` makes of the trace of one transaction. -/
def JsonTrace.toTransaction (t : JsonTrace) : Transaction where
  id := t.id
  actions := t.matchingActions.map JsonAction.toAction

/-- `{ ...prev.block, transactions }` -/
def JsonBlock.withTransactions (block : JsonBlock) (transactions : List Transaction) :
    EosioBlock where
  num := block.num
  id := block.id
  previous := block.previous
  timestamp := block.timestamp
  transactions := transactions

/-! ## `DfuseReceiver` -/

/-- `DfuseReceiver`, the part that `pushTrx` uses. -/
structure DfuseReceiver where
  storage : Storage
  unpushedTransactions : List JsonTrx := []

/-- What `pushTrx` throws. -/
inductive ReceiverError where
  | storage (error : StorageError)
  /-- `t.trace.id` of a message without a trace. -/
  | nullTrace
deriving DecidableEq, Repr

/-- The transactions of the unpushed messages, unless one has no trace. -/
def transactionsOf (trxs : List JsonTrx) : Option (List Transaction) :=
  trxs.mapM fun t => t.trace.map JsonTrace.toTransaction

namespace DfuseReceiver

variable (sha256 : Bytes → Checksum256)

/-- A call of the storage by `pushTrx`: an exception leaves the unpushed messages as
they are, otherwise they are dropped. -/
def afterStorage {α : Type} (r : DfuseReceiver) (result : Except StorageError α × Storage) :
    Except ReceiverError Unit × DfuseReceiver :=
  match result with
  | (.error e, storage) => (.error (.storage e), { r with storage })
  | (.ok _, storage) => (.ok (), { storage, unpushedTransactions := [] })

/-- The body of the inner `if` of `pushTrx`: undo or push the block of `prev`, the last
of the unpushed messages. -/
def pushUnpushed (r : DfuseReceiver) (prev : JsonTrx) :
    Except ReceiverError Unit × DfuseReceiver :=
  if prev.undo then r.afterStorage (r.storage.undoEosioNum prev.block.num)
  else if prev.trace.isSome then
    match transactionsOf r.unpushedTransactions with
    | none => (.error .nullTrace, r)
    | some transactions =>
      r.afterStorage <| r.storage.pushJsonBlock sha256
        (.ok (prev.block.withTransactions transactions)) prev.irreversibleBlockNum
  else (.ok (), { r with unpushedTransactions := [] })

/-- Whether `trx` goes with `prev`: the same block and the same undo flag. -/
def Continues (prev trx : JsonTrx) : Prop :=
  trx.undo = prev.undo ∧ trx.block.id = prev.block.id

instance (prev trx : JsonTrx) : Decidable (Continues prev trx) :=
  inferInstanceAs (Decidable (_ ∧ _))

/-- The first statement of `pushTrx`. -/
def settle (r : DfuseReceiver) (trx : JsonTrx) : Except ReceiverError Unit × DfuseReceiver :=
  match r.unpushedTransactions.getLast? with
  | some prev => if Continues prev trx then (.ok (), r) else r.pushUnpushed sha256 prev
  | none => (.ok (), r)

/-- `pushTrx` -/
def pushTrx (r : DfuseReceiver) (trx : JsonTrx) : Except ReceiverError Unit × DfuseReceiver :=
  match r.settle sha256 trx with
  | (.error e, r) => (.error e, r)
  | (.ok _, r) =>
    if trx.trace.isSome then
      (.ok (), { r with unpushedTransactions := r.unpushedTransactions ++ [trx] })
    else (.ok (), r)

/-- `for (let trx of trxs) this.pushTrx(trx);`, which ends at the first exception. -/
def pushTrxs (r : DfuseReceiver) : List JsonTrx → Except ReceiverError Unit × DfuseReceiver
  | [] => (.ok (), r)
  | trx :: trxs =>
    match r.pushTrx sha256 trx with
    | (.error e, r) => (.error e, r)
    | (.ok _, r) => r.pushTrxs trxs

/-- A receiver of a new storage. -/
def start (account : Name) : DfuseReceiver := { storage := Storage.instantiate account }

end DfuseReceiver

end Microchain.Box
