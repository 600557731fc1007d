import Microchain.Eosio.ShipProtocol
import Microchain.Starter.Database
import Microchain.Subchain.BlockLog

/-!
# The micro chain (`starter-micro-chain.cpp`)

The exported functions over one instance: the block log, the database and the
result buffer. `sha256` is the hash of the crypto library, a parameter.

A function that can fail returns the failure together with the state it leaves
behind. Failures are told apart by where they come from (`Failure`): `eosio::check`
in a handler, in `set_revision`, in the decoding of an argument, or a read outside
of what the argument holds. Failing unwinds the stack, so the undo session of a
block whose handler fails is undone.
-/

namespace Microchain.Starter

open Eosio Subchain Chainbase

/-- Why a call did not return. -/
inductive Failure where
  /-- An argument does not decode. -/
  | decode (message : String)
  /-- A read of a missing receipt or action trace. -/
  | undefined
  /-- A check failed in `filter_block`. -/
  | filterBlock (message : String)
  /-- A check failed in `set_revision`. -/
  | setRevision (message : String)
deriving DecidableEq, Repr

/-! ## Handlers -/

/-- `starter::greeting_event` -/
structure GreetingEvent where
  account : Name
  message : Bytes
deriving DecidableEq, Repr

/-- `from_bin(std::tuple<eosio::name, std::string>&)`, and the fields of a
`greeting_event`. -/
def nameStringFromBin : FromBin (Name × Bytes) := fun s => do
  let (account, s) ← nameFromBin s
  let (message, s) ← stringFromBin s
  .ok ((account, message), s)

/-- `from_bin(starter::event&)`: a variant of one alternative. -/
def eventFromBin : FromBin GreetingEvent := fun s => do
  let (u, s) ← varuint32FromBin s
  if u = 0 then
    let ((account, message), s) ← nameStringFromBin s
    .ok (⟨account, message⟩, s)
  else .error badVariantIndex

/-- What an action of a block asks for, with its arguments decoded. -/
inductive Handler where
  | hi (account : Name) (message : Bytes)
  | clearall
  | events (events : List GreetingEvent)
  | ignored
deriving DecidableEq, Repr

/-- `dispatch`, the decoding: `call` reads the arguments of the handler. -/
def dispatch (actionName : Name) (data : Bytes) : Except String Handler :=
  if actionName = Name.ofString "hi" then do
    let ((account, message), _) ← nameStringFromBin data
    .ok (.hi account message)
  else if actionName = Name.ofString "clearall" then .ok .clearall
  else .ok .ignored

/-- The body of the loop in `filter_block`, up to the handler's call. -/
def handlerOf (starterAccount : Name) (action : Action) : Except String Handler :=
  if action.firstReceiver = starterAccount then dispatch action.name action.hexData
  -- events that an action of the starter contract has sent inline
  else if action.firstReceiver = Name.ofString "eosio.null" ∧
      action.name = Name.ofString "chain.events" ∧
      action.creatorAction.any (·.receiver = starterAccount) then do
    let (events, _) ← vectorFromBin eventFromBin action.hexData
    .ok (.events events)
  else .ok .ignored

/-- The handlers `hi` and `clearall`; `handle_event` does nothing. -/
def Handler.run (table : GreetingIndex) : Handler → Except String Unit × GreetingIndex
  | hi account message => addOrReplace table ⟨account, message⟩
  | clearall => (.ok (), clearTable table)
  | events _ => (.ok (), table)
  | ignored => (.ok (), table)

/-- One action of a block. -/
def filterAction (starterAccount : Name) (table : GreetingIndex) (action : Action) :
    Except String Unit × GreetingIndex :=
  match handlerOf starterAccount action with
  | .error e => (.error e, table)
  | .ok handler => handler.run table

/-- The actions of a transaction, up to the first one that fails. -/
def filterActions (starterAccount : Name) (table : GreetingIndex) :
    List Action → Except String Unit × GreetingIndex
  | [] => (.ok (), table)
  | action :: actions =>
    match filterAction starterAccount table action with
    | (.error e, table) => (.error e, table)
    | (.ok _, table) => filterActions starterAccount table actions

/-- `block_state` -/
structure BlockState where
  inWithdraw : Bool := false
  inManualTransfer : Bool := false

/-- The transactions of a block, with the housekeeping check after each. -/
def filterTransactions (starterAccount : Name) (blockState : BlockState) (table : GreetingIndex) :
    List Transaction → Except String Unit × GreetingIndex
  | [] => (.ok (), table)
  | trx :: trxs =>
    match filterActions starterAccount table trx.actions with
    | (.error e, table) => (.error e, table)
    | (.ok _, table) =>
      if !blockState.inWithdraw && !blockState.inManualTransfer then
        filterTransactions starterAccount blockState table trxs
      else (.error "missing transfer notification", table)

/-- `filter_block` -/
def filterBlock (starterAccount : Name) (table : GreetingIndex) (block : EosioBlock) :
    Except String Unit × GreetingIndex :=
  filterTransactions starterAccount {} table block.transactions

/-! ## State-history blocks -/

/-- `ship_to_transactions`, the creator of an action: `none` when its trace or its
receipt is not there. -/
def shipCreatorAction (trxTrace : TransactionTrace) (actTrace : ActionTrace) :
    Option (Option CreatorAction) :=
  if 0 < actTrace.creatorActionOrdinal then do
    let creatorActionTrace ←
      trxTrace.actionTraces[(actTrace.creatorActionOrdinal - 1).toNat]?
    let receipt ← creatorActionTrace.receipt
    some (some ⟨receipt.globalSequence, creatorActionTrace.receiver⟩)
  else some none

/-- `ship_to_transactions`, one action. -/
def shipAction (trxTrace : TransactionTrace) (actTrace : ActionTrace) : Option Action := do
  let creatorAction ← shipCreatorAction trxTrace actTrace
  let receipt ← actTrace.receipt
  some
    { seq := receipt.globalSequence
      firstReceiver := actTrace.act.account
      receiver := actTrace.receiver
      name := actTrace.act.name
      creatorAction
      hexData := actTrace.act.data }

/-- `ship_to_transactions`, one transaction. -/
def shipTransaction (trxTrace : TransactionTrace) : Option Transaction := do
  let actions ← trxTrace.actionTraces.mapM (shipAction trxTrace)
  some { id := trxTrace.id, actions }

/-- `ship_to_transactions` -/
def shipToTransactions (traces : List TransactionTrace) : Option (List Transaction) :=
  traces.mapM shipTransaction

/-! ## The instance -/

/-- `result`: the variant of a string and bytes. -/
inductive ResultBuffer where
  | text (value : String)
  | bytes (value : Bytes)
deriving DecidableEq, Repr

/-- The globals of the instance. -/
structure MicroChain where
  starterAccount : Name
  result : ResultBuffer := .text ""
  blockLog : BlockLog := {}
  db : Database := Database.new

namespace MicroChain

/-- `forked_n_blocks` -/
def forkedNBlocks (m : MicroChain) : Nat → MicroChain
  | 0 => m
  | n + 1 => forkedNBlocks { m with db := m.db.undo } n

/-- `add_block(block_with_id&&, uint32_t)` -/
def addBlockWithId (m : MicroChain) (bi : BlockWithId) (eosioIrreversible : UInt32) :
    Except Failure Bool × MicroChain :=
  match m.blockLog.addBlock bi with
  | (.appended, numForked, log) =>
    let m := { m with blockLog := log }.forkedNBlocks numForked
    -- the last block at or before `eosio_irreversible`
    let log := m.blockLog.raiseIrreversible (m.blockLog.blockBeforeEosioNum (eosioIrreversible + 1))
    let db := m.db.commit log.irreversible.toNat
    let needUndo := decide (log.irreversible < bi.num)
    -- a block that is final already needs no session
    let (session, db) := db.startUndoSession needUndo
    match filterBlock m.starterAccount db.greetings bi.eosioBlock with
    | (.error e, greetings) =>
      -- the destructor of the session undoes it
      (.error (.filterBlock e), { m with blockLog := log, db := session.undo ⟨greetings⟩ })
    | (.ok _, greetings) =>
      let db : Database := ⟨greetings⟩
      -- `session.push()`, or a revision for the next session to start from
      if needUndo then (.ok true, { m with blockLog := log, db })
      else
        match db.setRevision bi.num.toNat with
        | .error e => (.error (.setRevision e), { m with blockLog := log, db })
        | .ok db => (.ok true, { m with blockLog := log, db })
  | (_, _, log) => (.ok false, { m with blockLog := log })

variable (sha256 : Bytes → Checksum256)

/-- The block as it is logged: the id is the hash of the binary encoding. -/
def withId (block : Block) : BlockWithId := { block with id := sha256 (blockToBin block) }

/-- `add_block(block&&, uint32_t)` -/
def addSubchainBlock (m : MicroChain) (block : Block) (eosioIrreversible : UInt32) :
    Except Failure Bool × MicroChain :=
  let bi := withId sha256 block
  let m := { m with result := .bytes (checksum256ToBin bi.id ++ blockToBin block) }
  m.addBlockWithId bi eosioIrreversible

/-- The subchain block that `add_block(eosio_block&&, uint32_t)` builds. -/
def nextBlock (log : BlockLog) (eosioBlock : EosioBlock) : Block :=
  match log.blockBeforeEosioNum eosioBlock.num with
  | some prev => { num := prev.num + 1, previous := prev.id, eosioBlock }
  | none => { num := 1, eosioBlock }

/-- `add_block(eosio_block&&, uint32_t)` -/
def addEosioBlock (m : MicroChain) (eosioBlock : EosioBlock) (eosioIrreversible : UInt32) :
    Except Failure Bool × MicroChain :=
  m.addSubchainBlock sha256 (nextBlock m.blockLog eosioBlock) eosioIrreversible

/-- The eosio block of a state-history result. -/
def shipEosioBlock (r : GetBlocksResult) (thisBlock : BlockPosition)
    (transactions : List Transaction) : EosioBlock :=
  { num := thisBlock.blockNum
    id := thisBlock.blockId
    previous := (r.prevBlock.getD {}).blockId
    timestamp := r.timestamp.toTimePoint
    transactions }

/-- What `pushShipMessage` does with a decoded message. -/
def addShipResult (m : MicroChain) : ShipResult → Except Failure Bool × MicroChain
  | .getStatusResult => (.ok false, m)
  | .getBlocksResult r =>
    match r.thisBlock with
    | none => (.error (.decode "bad_optional_access"), m)
    | some thisBlock =>
      match shipToTransactions r.traces with
      | none => (.error .undefined, m)
      | some transactions =>
        m.addEosioBlock sha256 (shipEosioBlock r thisBlock transactions)
          r.lastIrreversible.blockNum

/-! ## Exported functions -/

/-- Decode an argument, then go on. -/
def decoding {α : Type} (m : MicroChain) (decoded : Except String α)
    (f : α → Except Failure Bool × MicroChain) : Except Failure Bool × MicroChain :=
  match decoded with
  | .error e => (.error (.decode e), m)
  | .ok a => f a

/-- `setIrreversible` -/
def setIrreversible (m : MicroChain) (irreversible : UInt32) : MicroChain :=
  let log := m.blockLog.setIrreversible irreversible
  { m with blockLog := log, db := m.db.commit log.irreversible.toNat }

/-- `trimBlocks` -/
def trimBlocks (m : MicroChain) : MicroChain := { m with blockLog := m.blockLog.trim }

/-- `undoBlockNum` -/
def undoBlockNum (m : MicroChain) (blockNum : UInt32) : MicroChain :=
  let (n, log) := m.blockLog.undo blockNum
  { m with blockLog := log }.forkedNBlocks n

/-- `undoEosioNum` -/
def undoEosioNum (m : MicroChain) (eosioNum : UInt32) : MicroChain :=
  let (n, log) := m.blockLog.undoEosioNum eosioNum
  { m with blockLog := log }.forkedNBlocks n

/-- `getBlock` -/
def getBlock (m : MicroChain) (num : UInt32) : Bool × MicroChain :=
  match m.blockLog.blockByNum num with
  | none => (false, m)
  | some block => (true, { m with result := .bytes (blockWithIdToBin block) })

end MicroChain

/-- A call of an exported mutator. The arguments that are read from bytes are given
by what decoding them yields. -/
inductive Call where
  | addEosioBlockJson (json : Except String EosioBlock) (eosioIrreversible : UInt32)
  | addBlock (data : Except String BlockWithId) (eosioIrreversible : UInt32)
  | pushShipMessage (data : Except String ShipResult)
  | setIrreversible (irreversible : UInt32)
  | trimBlocks
  | undoBlockNum (blockNum : UInt32)
  | undoEosioNum (eosioNum : UInt32)

open MicroChain in
/-- One call: whether a block was added, or the failure, and the state after. -/
def Call.exec (sha256 : Bytes → Checksum256) (m : MicroChain) :
    Call → Except Failure Bool × MicroChain
  | addEosioBlockJson json irr => m.decoding json fun b => m.addEosioBlock sha256 b irr
  | addBlock data irr => m.decoding data fun b => m.addBlockWithId b irr
  | pushShipMessage data => m.decoding data (m.addShipResult sha256)
  | setIrreversible n => (.ok false, m.setIrreversible n)
  | trimBlocks => (.ok false, m.trimBlocks)
  | undoBlockNum n => (.ok false, m.undoBlockNum n)
  | undoEosioNum n => (.ok false, m.undoEosioNum n)

end Microchain.Starter
