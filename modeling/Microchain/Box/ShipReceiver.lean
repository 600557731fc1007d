import Microchain.Box.Storage
import Microchain.Starter.Replay
import Microchain.Subchain.Decode

/-!
# The state-history receiver (`ship-receiver.ts`)

The receiver asks the node for the blocks from `firstBlock` on, whenever it has connected, and
gives all that comes then to the storage. It remembers no place: after a lost connection or a
restart everything comes again.

The node is modelled by its blocks from `firstBlock` on and by what it promises
(`ShipSystem.step`): it sends the blocks in order, goes back when it switches to another
branch, and does not switch below its last irreversible block. The log output is left out.
-/

namespace Microchain.Box

open Eosio Subchain Starter

/-! ## The request -/

/-- `get_blocks_request_v0` -/
structure GetBlocksRequest where
  startBlockNum : UInt32 := 0
  endBlockNum : UInt32 := 0
  maxMessagesInFlight : UInt32 := 0
  havePositions : List BlockPosition := []
  irreversibleOnly : Bool := false
  fetchBlock : Bool := false
  fetchTraces : Bool := false
  fetchDeltas : Bool := false
deriving DecidableEq, Repr

/-- `ship_protocol::request` -/
inductive ShipRequest where
  | getStatusRequest
  | getBlocksRequest (request : GetBlocksRequest)
  | getBlocksAckRequest (numMessages : UInt32)
deriving DecidableEq, Repr

def boolToBin (b : Bool) : Bytes := [if b then 1 else 0]

def boolFromBin : FromBin Bool := fun s => do
  let (b, s) ← uint8FromBin s
  .ok (b ≠ 0, s)

def blockPositionToBin (position : BlockPosition) : Bytes :=
  uint32ToBin position.blockNum ++ checksum256ToBin position.blockId

def blockPositionFromBin : FromBin BlockPosition := fun s => do
  let (blockNum, s) ← uint32FromBin s
  let (blockId, s) ← checksum256FromBin s
  .ok ({ blockNum, blockId }, s)

def getBlocksRequestToBin (request : GetBlocksRequest) : Bytes :=
  uint32ToBin request.startBlockNum ++ uint32ToBin request.endBlockNum ++
    uint32ToBin request.maxMessagesInFlight ++
    vectorToBin blockPositionToBin request.havePositions ++ boolToBin request.irreversibleOnly ++
    boolToBin request.fetchBlock ++ boolToBin request.fetchTraces ++ boolToBin request.fetchDeltas

def getBlocksRequestFromBin : FromBin GetBlocksRequest := fun s => do
  let (startBlockNum, s) ← uint32FromBin s
  let (endBlockNum, s) ← uint32FromBin s
  let (maxMessagesInFlight, s) ← uint32FromBin s
  let (havePositions, s) ← vectorFromBin blockPositionFromBin s
  let (irreversibleOnly, s) ← boolFromBin s
  let (fetchBlock, s) ← boolFromBin s
  let (fetchTraces, s) ← boolFromBin s
  let (fetchDeltas, s) ← boolFromBin s
  .ok ({ startBlockNum, endBlockNum, maxMessagesInFlight, havePositions, irreversibleOnly
         fetchBlock, fetchTraces, fetchDeltas }, s)

/-- `to_bin` of the variant: the number of the alternative, and the alternative. -/
def shipRequestToBin : ShipRequest → Bytes
  | .getStatusRequest => varuint32ToBin 0
  | .getBlocksRequest request => varuint32ToBin 1 ++ getBlocksRequestToBin request
  | .getBlocksAckRequest numMessages => varuint32ToBin 2 ++ uint32ToBin numMessages

/-- `from_bin` of the variant. -/
def shipRequestFromBin : FromBin ShipRequest := fun s => do
  let (index, s) ← varuint32FromBin s
  if index = 0 then .ok (.getStatusRequest, s)
  else if index = 1 then do
    let (request, s) ← getBlocksRequestFromBin s
    .ok (.getBlocksRequest request, s)
  else if index = 2 then do
    let (numMessages, s) ← uint32FromBin s
    .ok (.getBlocksAckRequest numMessages, s)
  else .error badVariantIndex

/-- The request that `getShipBlocksRequest` makes. -/
def shipBlocksRequest (blockNum : UInt32) : ShipRequest :=
  .getBlocksRequest
    { startBlockNum := blockNum
      endBlockNum := 0xffffffff
      maxMessagesInFlight := 0xffffffff
      fetchBlock := true
      fetchTraces := true }

/-- `getShipBlocksRequest`, the exported function -/
def getShipBlocksRequest (m : MicroChain) (blockNum : UInt32) : Bool × MicroChain :=
  (true, { m with result := .bytes (shipRequestToBin (shipBlocksRequest blockNum)) })

/-- `Subchain.getShipBlocksRequest` -/
def subchainShipBlocksRequest (m : MicroChain) (blockNum : UInt32) : Option Bytes × MicroChain :=
  match getShipBlocksRequest m blockNum with
  | (false, m) => (none, m)
  | (true, m) => (some (resultAsUint8Array m), m)

/-- `Storage.getShipBlocksRequest` -/
def Storage.getShipBlocksRequest (s : Storage) (blockNum : UInt32) :
    Except StorageError (Option Bytes) × Storage :=
  s.protect fun blocksWasm stateWasm =>
    let (request, blocksWasm) := subchainShipBlocksRequest blocksWasm blockNum
    .ok (request, blocksWasm, stateWasm)

/-- `Storage.saveState`: what is written to the file. -/
def Storage.saveState (s : Storage) : Except StorageError MicroChain × Storage :=
  s.protect fun blocksWasm stateWasm => .ok (stateWasm, blocksWasm, stateWasm)

/-! ## The node -/

/-- A block of the node, with traces that convert and actions that decode. -/
structure NodeBlock (account : Name) where
  /-- What is sent of it, but for `last_irreversible`. -/
  result : GetBlocksResult
  position : BlockPosition
  transactions : List Transaction
  this : result.thisBlock = some position
  converts : shipToTransactions result.traces = some transactions
  decodes : Decodes account (MicroChain.shipEosioBlock result position transactions)

namespace NodeBlock

variable {account : Name}

/-- The eosio block that the micro chain makes of it. -/
def eosioBlock (block : NodeBlock account) : EosioBlock :=
  MicroChain.shipEosioBlock block.result block.position block.transactions

/-- The message with the block, while `lib` is the last irreversible block. -/
def message (block : NodeBlock account) (lib : UInt32) : ShipResult :=
  .getBlocksResult { block.result with lastIrreversible := { blockNum := lib } }

end NodeBlock

/-- What the node sends. -/
inductive ShipData (account : Name) where
  /-- A text, with which a connection begins. -/
  | abi
  | block (block : NodeBlock account) (lib : UInt32)

/-- The data as `pushShipMessage` decodes it. A text begins with a brace, which is no number of
an alternative. -/
def ShipData.decoded {account : Name} : ShipData account → Except String ShipResult
  | abi => .error badVariantIndex
  | block b lib => .ok (b.message lib)

/-! ## The receiver -/

/-- `ShipReceiver` -/
structure ShipReceiver where
  storage : Storage
  wsClient : Bool := false
  requestedBlocks : Bool := false
  /-- The timers that connect. -/
  timers : Nat := 0
  stateFile : Option MicroChain := none

namespace ShipReceiver

variable (sha256 : Bytes → Checksum256) (firstBlock : UInt32) {account : Name}

/-- `connect`, where `constructed` says whether `new WebSocket` returns. -/
def connect (r : ShipReceiver) (constructed : Bool) : ShipReceiver :=
  if r.wsClient then r
  else if constructed then { r with wsClient := true }
  else { r with timers := r.timers + 1 }

/-- `start` -/
def start (account : Name) (stateFile : Option MicroChain) (constructed : Bool) : ShipReceiver :=
  ({ storage := Storage.instantiate account, stateFile } : ShipReceiver).connect constructed

/-- `disconnect` -/
def disconnect (r : ShipReceiver) : ShipReceiver :=
  let r := if r.wsClient then { r with requestedBlocks := false, wsClient := false } else r
  { r with timers := r.timers + 1 }

/-- `onMessage`: the request that is sent, if one is. -/
def onMessage (r : ShipReceiver) (data : ShipData account) :
    Except StorageError (Option Bytes) × ShipReceiver :=
  if !r.requestedBlocks then
    match r.storage.getShipBlocksRequest firstBlock with
    | (.error e, storage) => (.error e, { r with storage })
    | (.ok request, storage) => (.ok request, { r with storage, requestedBlocks := true })
  else
    match r.storage.pushShipMessage sha256 data.decoded with
    | (.error e, storage) => (.error e, { r with storage })
    | (.ok _, storage) =>
      match storage.saveState with
      | (.error e, storage) => (.error e, { r with storage })
      | (.ok memory, storage) => (.ok none, { r with storage, stateFile := some memory })

end ShipReceiver

/-! ## The receiver and the node -/

/-- A connection: what is on its way, and what the node sends next. -/
structure ShipConnection (account : Name) where
  requests : List Bytes := []
  sending : Option Nat := none
  maxInFlight : Nat := 0
  inFlight : Nat := 0
  queue : List (ShipData account) := [.abi]

/-- The node, the receiver if its process runs, and their connection. -/
structure ShipSystem (account : Name) where
  /-- The blocks of the node from `firstBlock` on. -/
  chain : List (NodeBlock account) := []
  /-- The number of the last irreversible block. -/
  lib : UInt32 := 0
  process : Option ShipReceiver := none
  stateFile : Option MicroChain := none
  connection : Option (ShipConnection account) := none
  /-- Whether an exception has ended a process. -/
  threw : Bool := false
  /-- All branches that the node has been on. -/
  branches : List (List EosioBlock) := [[]]

/-- What can happen. -/
inductive ShipAction (account : Name) where
  /-- The node gets a block. -/
  | accept (block : NodeBlock account)
  /-- It leaves its branch behind the first `n` blocks. -/
  | switch (n : Nat)
  /-- Blocks become irreversible. -/
  | finalize (lib : UInt32)
  /-- The node gets a request. -/
  | serve
  /-- The node sends a block. -/
  | send
  /-- The receiver gets a message. -/
  | deliver
  /-- The connection is lost, maybe with an error, which has an event of its own. -/
  | close (error : Bool)
  /-- A timer of the receiver fires. -/
  | retry (constructed : Bool)
  /-- The process ends. -/
  | crash
  /-- The box is started again. -/
  | restart (constructed : Bool)

namespace ShipConnection

variable {account : Name}

/-- The node takes up the next request. Only requests for blocks come. -/
def serve (firstBlock : UInt32) (c : ShipConnection account) : ShipConnection account :=
  match c.requests with
  | [] => c
  | bytes :: requests =>
    match shipRequestFromBin bytes with
    | .ok (.getBlocksRequest request, _) =>
      { c with
        requests
        sending := some (request.startBlockNum.toNat - firstBlock.toNat)
        maxInFlight := request.maxMessagesInFlight.toNat }
    | _ => { c with requests }

/-- The node sends the next block, unless too many have not been acknowledged. -/
def send (chain : List (NodeBlock account)) (lib : UInt32) (c : ShipConnection account) :
    ShipConnection account :=
  match c.sending with
  | none => c
  | some next =>
    match chain[next]? with
    | none => c
    | some block =>
      if c.inFlight < c.maxInFlight then
        { c with
          sending := some (next + 1)
          inFlight := c.inFlight + 1
          queue := c.queue ++ [.block block lib] }
      else c

/-- The node goes back to the first block of the new branch. -/
def switch (n : Nat) (c : ShipConnection account) : ShipConnection account :=
  { c with sending := c.sending.map (min · n) }

end ShipConnection

namespace ShipSystem

variable (sha256 : Bytes → Checksum256) (firstBlock : UInt32) {account : Name}

/-- The eosio blocks of the node's branch. -/
def branch (sys : ShipSystem account) : List EosioBlock := sys.chain.map NodeBlock.eosioBlock

/-- The node is on another branch. -/
def onBranch (sys : ShipSystem account) (chain : List (NodeBlock account)) : ShipSystem account :=
  { sys with chain, branches := chain.map NodeBlock.eosioBlock :: sys.branches }

/-- A receiver that has connected, or not. -/
def connected (sys : ShipSystem account) (r : ShipReceiver) : ShipSystem account :=
  { sys with process := some r, connection := if r.wsClient then some {} else none }

/-- One step; what the node does not do leaves everything as it is. -/
def step (sys : ShipSystem account) : ShipAction account → ShipSystem account
  | .accept block =>
    if block.eosioBlock.num.toNat = firstBlock.toNat + sys.chain.length then
      sys.onBranch (sys.chain ++ [block])
    else sys
  | .switch n =>
    if sys.lib.toNat < firstBlock.toNat + n then
      { sys.onBranch (sys.chain.take n) with
        connection := sys.connection.map (ShipConnection.switch n) }
    else sys
  | .finalize lib =>
    if sys.lib ≤ lib ∧ lib.toNat < firstBlock.toNat + sys.chain.length then { sys with lib }
    else sys
  | .serve => { sys with connection := sys.connection.map (ShipConnection.serve firstBlock) }
  | .send => { sys with connection := sys.connection.map (ShipConnection.send sys.chain sys.lib) }
  | .deliver =>
    match sys.process, sys.connection with
    | some r, some c =>
      match c.queue with
      | [] => sys
      | data :: queue =>
        match r.onMessage sha256 firstBlock data with
        | (.error _, _) => { sys with process := none, connection := none, threw := true }
        | (.ok request, r) =>
          { sys with
            process := some r
            stateFile := r.stateFile
            connection := some { c with queue, requests := c.requests ++ request.toList } }
    | _, _ => sys
  | .close error =>
    match sys.process, sys.connection with
    | some r, some _ =>
      { sys with
        process := some (if error then r.disconnect.disconnect else r.disconnect)
        connection := none }
    | _, _ => sys
  | .retry constructed =>
    match sys.process with
    | none => sys
    | some r =>
      if r.timers = 0 then sys
      else
        let r := { r with timers := r.timers - 1 }
        if r.wsClient then { sys with process := some r }
        else sys.connected (r.connect constructed)
  | .crash => { sys with process := none, connection := none }
  | .restart constructed =>
    match sys.process with
    | some _ => sys
    | none => sys.connected (ShipReceiver.start account sys.stateFile constructed)

/-- Any steps. -/
def run (sys : ShipSystem account) (actions : List (ShipAction account)) : ShipSystem account :=
  actions.foldl (step sha256 firstBlock) sys

/-- The receiver has asked for the blocks and got all that the node has. -/
def CaughtUp (sys : ShipSystem account) : Prop :=
  ∃ c, sys.connection = some c ∧ c.sending = some sys.chain.length ∧ c.queue = []

end ShipSystem

end Microchain.Box
