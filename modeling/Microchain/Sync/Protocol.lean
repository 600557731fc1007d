import Microchain.Feed.HashChain
import Microchain.Graphql.ToJson
import Microchain.Starter.Query

/-!
# The sync protocol (`SubchainProtocol.ts`, `SubchainClient.ts`, `handlers/subchain.ts`)

A client holds a micro chain of its own and keeps it up to date over a socket. It sends
its status: its blocks from the irreversible one on, and how many blocks it can take.
The box answers with blocks and updates of the head and of `irreversible`, as its own
chain changes, until that number is used up; then it asks for the next status.

- `ConnectionState.update`: what the box sends;
- `SubchainClient.processMessage`, `SubchainClient.status`: what a client does with it;
- `System.step`: the box with any number of clients, one step at a time.

Parsing the text of a message gives back the object that was written. What a query or
`getBlock` leaves in the result buffer is read at once and not kept.
-/

namespace Microchain

open Eosio Subchain Starter Graphql Box

namespace Sync

/-! ## Messages -/

/-- `BlockInfo` -/
structure BlockInfo where
  num : Nat
  id : Bytes
deriving DecidableEq, Repr

/-- `ClientStatus` -/
structure ClientStatus where
  maxBlocksToSend : Nat
  irreversible : Nat
  blocks : List BlockInfo
deriving DecidableEq, Repr

/-- The types of a `ServerMessage` that the box sends. -/
inductive MessageType where
  | sendStatus
  | setHead
  | setIrreversible
deriving DecidableEq, Repr

/-- `ServerMessage` -/
structure ServerMessage where
  type : MessageType
  head : Option Nat := none
  irreversible : Option Nat := none
deriving DecidableEq, Repr

/-- What goes over the socket to a client: bytes, or the text of a message. -/
inductive Data where
  | blob (bytes : Bytes)
  | text (msg : ServerMessage)
deriving DecidableEq, Repr

/-- `x >>> 0` -/
def toUint32 (x : Nat) : Nat := x % 2 ^ 32

/-- `sanitizeBlockInfo` -/
def sanitizeBlockInfo (src : BlockInfo) : BlockInfo where
  num := toUint32 src.num
  id := src.id

/-- `sanitizeClientStatus` -/
def sanitizeClientStatus (src : ClientStatus) : ClientStatus where
  maxBlocksToSend := min (toUint32 src.maxBlocksToSend) 1000
  irreversible := toUint32 src.irreversible
  blocks := src.blocks.map sanitizeBlockInfo

/-- `sanitizeServerMessage`: a number that is missing becomes 0. -/
def sanitizeServerMessage (src : ServerMessage) : ServerMessage where
  type := src.type
  head := some (toUint32 (src.head.getD 0))
  irreversible := some (toUint32 (src.irreversible.getD 0))

end Sync

open Sync

/-! ## What both sides read of a chain -/

/-- A checksum in an answer: its digits. -/
def Sync.idText (id : Checksum256) : Bytes := (checksum256ToBin id).flatMap hexPair

/-- `Subchain.getIrreversible` -/
def Sync.getIrreversible (m : MicroChain) : Nat :=
  ((m.blockLog.blockByNum m.blockLog.irreversible).map (·.num.toNat)).getD 0

namespace Sync

/-- Why `update` throws. -/
inductive UpdateError where
  | storage (error : StorageError)
  /-- "Missing block" -/
  | missingBlock
  /-- A member of null is read. -/
  | typeError
deriving DecidableEq, Repr

end Sync

namespace Box.Storage

/-- `getBlock`: `none` where it returns null. -/
def getBlock (s : Storage) (num : Nat) : Except StorageError (Option Bytes) :=
  (s.protect fun blocksWasm stateWasm =>
    let (found, blocksWasm) := blocksWasm.getBlock (UInt32.ofNat num)
    .ok (if found then some (resultAsUint8Array blocksWasm) else none, blocksWasm, stateWasm)).1

/-- `idForNum` -/
def idForNum (s : Storage) (num : Nat) : Except UpdateError Bytes :=
  match (s.protect fun blocksWasm stateWasm =>
    .ok (blocksWasm.blockLog.blockByNum (UInt32.ofNat num), blocksWasm, stateWasm)).1 with
  | .error e => .error (.storage e)
  | .ok none => .error .typeError
  | .ok (some block) => .ok (idText block.id)

end Box.Storage

namespace Sync

/-! ## The box -/

/-- The `readyState` of a socket: `OPEN`, or one of the others. -/
inductive ReadyState where
  | opened
  | closed
deriving DecidableEq, Repr

/-- `ConnectionState`. A callback that is registered is told by its flag, so `changed`
runs those of the connections that have one. -/
structure ConnectionState where
  ws : Option ReadyState := some .opened
  haveCallback : Bool := false
  status : Option ClientStatus := none

/-- `head` -/
def ClientStatus.head (status : ClientStatus) : Nat :=
  (status.blocks.getLast?.map (·.num)).getD 0

/-- The first loop of `update`, from the last block of the status on: whether it has
removed one, and the blocks that are left. -/
def popBlocks (s : Storage) : List BlockInfo → Bool → Except UpdateError Bool × List BlockInfo
  | [], needHeadUpdate => (.ok needHeadUpdate, [])
  | b :: blocks, needHeadUpdate =>
    if s.head < b.num then popBlocks s blocks true
    else
      match s.idForNum b.num with
      | .error e => (.error e, b :: blocks)
      | .ok id =>
        if b.id ≠ id then popBlocks s blocks true
        else (.ok needHeadUpdate, b :: blocks)

/-- The locals of `update`, and what it has sent. -/
structure Updating where
  status : ClientStatus
  needHeadUpdate : Bool
  sent : List Data := []

/-- `sendMsg` -/
def Updating.sendMsg (u : Updating) (msg : ServerMessage) : Updating :=
  { u with sent := u.sent ++ [.text msg] }

/-- What the second loop does when it has sent a block: `irreversible`, as far as the
client has the blocks. -/
def Updating.sendIrreversible (u : Updating) (m : MicroChain) : Updating :=
  let irreversible := min (getIrreversible m) u.status.head
  if u.status.irreversible < irreversible then
    let u := u.sendMsg { type := .setIrreversible, irreversible := some irreversible }
    { u with status := { u.status with irreversible } }
  else u

/-- The second loop of `update`; the first argument is `status.maxBlocksToSend`. -/
def sendBlocks (s : Storage) : Nat → Updating → Except UpdateError Unit × Updating
  | 0, u => (.ok (), u)
  | n + 1, u =>
    let needBlock := u.status.head + 1
    if s.head < needBlock then (.ok (), u)
    else
      match s.getBlock needBlock with
      | .error e => (.error (.storage e), u)
      | .ok none => (.error .missingBlock, u)
      | .ok (some block) =>
        let u := { u with
          sent := u.sent ++ [.blob block]
          status := { u.status with maxBlocksToSend := n } }
        match s.idForNum needBlock with
        | .error e => (.error e, u)
        | .ok id =>
          let u := { u with
            status := { u.status with blocks := u.status.blocks ++ [⟨needBlock, id⟩] }
            needHeadUpdate := false }
          match s.blocksWasm with
          | none => (.error .typeError, u)
          | some blocksWasm => sendBlocks s n (u.sendIrreversible blocksWasm)

/-- What `update` does in its `try`, up to the end of the loops. -/
def ClientStatus.serve (s : Storage) (status : ClientStatus) : Except UpdateError Unit × Updating :=
  match popBlocks s status.blocks.reverse false with
  | (.error e, blocks) =>
    (.error e, { status := { status with blocks := blocks.reverse }, needHeadUpdate := false })
  | (.ok needHeadUpdate, blocks) =>
    sendBlocks s status.maxBlocksToSend
      { status := { status with blocks := blocks.reverse }, needHeadUpdate }

/-- `if (needHeadUpdate) this.sendMsg({ type: "setHead", head: this.head() });` -/
def Updating.sendHead (u : Updating) : Updating :=
  if u.needHeadUpdate then u.sendMsg { type := .setHead, head := some u.status.head } else u

/-- `update`: the connection after it, and what is sent. -/
def ConnectionState.update (s : Storage) (cs : ConnectionState) : ConnectionState × List Data :=
  match cs.ws with
  | none => (cs, [])
  | some .closed => ({ cs with ws := none }, [])
  | some .opened =>
    match cs.status with
    | none => (cs, [])
    | some status =>
      match status.serve s with
      -- the socket is closed behind what has been sent
      | (.error _, u) => ({ cs with ws := none, status := some u.status }, u.sent)
      | (.ok _, u) =>
        let u := u.sendHead
        if u.status.maxBlocksToSend = 0 then
          ({ cs with status := none }, (u.sendMsg { type := .sendStatus }).sent)
        else ({ cs with status := some u.status, haveCallback := true }, u.sent)

/-- The callback of a connection, when it has one. -/
def ConnectionState.changed (s : Storage) (cs : ConnectionState) : ConnectionState × List Data :=
  if cs.haveCallback then { cs with haveCallback := false }.update s else (cs, [])

/-- The handler of `message`. -/
def ConnectionState.message (s : Storage) (cs : ConnectionState) (status : ClientStatus) :
    ConnectionState × List Data :=
  { cs with status := some (sanitizeClientStatus status) }.update s

/-! ## A client -/

/-- The `subchain` of a client: an exception leaves it corrupt. -/
inductive Instance where
  | missing
  | running (m : MicroChain)
  | corrupt

/-- A client, with what is on its way to it, received or not, and from it. -/
structure SubchainClient where
  subchain : Instance := .missing
  slowmo : Bool := false
  /-- `ws` is there. -/
  ws : Bool := false
  messageQueue : List Data := []
  statuses : List ClientStatus := []

namespace SubchainClient

/-- `sendStatus`: the status that is sent. -/
def status (slowmo : Bool) (m : MicroChain) : Option ClientStatus :=
  let irreversible := getIrreversible m
  match Query.blocks m { ge := some (UInt32.ofNat irreversible) } {} with
  | .error _ => none
  | .ok conn =>
    some
      { maxBlocksToSend := if slowmo then 1 else 1000
        irreversible
        blocks := conn.edges.map fun edge => ⟨edge.node.num.toNat, idText edge.node.id⟩ }

/-- `sendStatus` -/
def sendStatus (client : SubchainClient) : SubchainClient :=
  if client.ws then
    match client.subchain with
    | .running m => { client with statuses := client.statuses ++ (status client.slowmo m).toList }
    | _ => client
  else client

/-- The call of an instance for what a client has received; a request for its status
needs none. -/
def calls : Data → List Call
  | .blob bytes => [Feed.addBlockBytes bytes 0]
  | .text msg =>
    let msg := sanitizeServerMessage msg
    match msg.type with
    | .sendStatus => []
    | .setHead => [.undoBlockNum (UInt32.ofNat (msg.head.getD 0 + 1))]
    | .setIrreversible => [.setIrreversible (UInt32.ofNat (msg.irreversible.getD 0)), .trimBlocks]

variable (sha256 : Bytes → Checksum256)

/-- Calls of an instance, up to the first one that throws. -/
def exec (m : MicroChain) : List Call → Instance
  | [] => .running m
  | call :: calls =>
    match call.exec sha256 m with
    | (.error _, _) => .corrupt
    | (.ok _, m) => exec m calls

/-- The body of the loop of `processQueue`. -/
def processMessage (client : SubchainClient) (data : Data) : SubchainClient :=
  match client.subchain with
  | .running m =>
    match data with
    | .text { type := .sendStatus, .. } => client.sendStatus
    | _ => { client with subchain := exec sha256 m (calls data) }
  | _ => client

/-- One turn of the loop of `processQueue`. -/
def processQueue (client : SubchainClient) : SubchainClient :=
  match client.messageQueue with
  | [] => client
  | data :: messageQueue => { client with messageQueue }.processMessage sha256 data

end SubchainClient

/-! ## The box and its clients -/

/-- A client and the box's end of its connection. -/
structure Peer where
  client : SubchainClient := {}
  connection : ConnectionState := { ws := none }

/-- The box, its state file, and its clients. -/
structure System where
  storage : Storage
  stateFile : Option MicroChain := none
  peers : Nat → Peer := fun _ => {}

/-- What can happen. -/
inductive Action where
  /-- A history receiver calls the storage. -/
  | call (call : StorageCall)
  | saveState
  /-- A page is loaded: a new client, with the state file if there is one. -/
  | instantiateStreaming (i : Nat) (slowmo : Bool)
  /-- A client opens a connection, when it has none and has worked off what came over the
  one before. -/
  | connect (i : Nat)
  /-- A connection is lost; the client has received some of what was on its way. -/
  | onclose (i : Nat) (received : Nat)
  /-- A client processes what it has received first. -/
  | onmessage (i : Nat)
  /-- A status arrives at the box. -/
  | message (i : Nat)

namespace Peer

/-- Take over the box's end of the connection and send. -/
def send (p : Peer) (r : ConnectionState × List Data) : Peer where
  client := { p.client with messageQueue := p.client.messageQueue ++ r.2 }
  connection := r.1

def instantiateStreaming (p : Peer) (memory : MicroChain) (slowmo : Bool) : Peer where
  client := { subchain := .running memory, slowmo }
  connection := { p.connection with ws := p.connection.ws.map fun _ => .closed }

/-- `connect`, and `sendStatus` once the connection is open. -/
def connect (p : Peer) : Peer :=
  if p.client.ws || !p.client.messageQueue.isEmpty then p
  else
    match p.client.subchain with
    | .missing => p
    | _ => { client := { p.client with ws := true }.sendStatus, connection := {} }

def onclose (p : Peer) (received : Nat) : Peer where
  client := { p.client with
    ws := false
    messageQueue := p.client.messageQueue.take received
    statuses := [] }
  connection := { p.connection with ws := p.connection.ws.map fun _ => .closed }

def onmessage (sha256 : Bytes → Checksum256) (p : Peer) : Peer :=
  { p with client := p.client.processQueue sha256 }

def message (s : Storage) (p : Peer) : Peer :=
  match p.client.statuses with
  | [] => p
  | status :: statuses =>
    { p with client := { p.client with statuses } }.send (p.connection.message s status)

def changed (s : Storage) (p : Peer) : Peer := p.send (p.connection.changed s)

end Peer

variable (sha256 : Bytes → Checksum256)

/-- Whether a call of the storage returns, so that `changed` has run. -/
def returns (s : Storage) : StorageCall → Bool
  | .pushJsonBlock jsonBlock irreversible =>
    (s.pushJsonBlock sha256 jsonBlock irreversible).1.toOption.isSome
  | .pushShipMessage shipMessage => (s.pushShipMessage sha256 shipMessage).1.toOption.isSome
  | .undoEosioNum eosioNum => (s.undoEosioNum eosioNum).1.toOption.isSome

namespace System

variable (account : Name)

/-- The box starts. -/
def start : System := { storage := .instantiate account }

/-- A step of one client or its connection. -/
def onPeer (sys : System) (i : Nat) (f : Peer → Peer) : System :=
  { sys with peers := Function.update sys.peers i (f (sys.peers i)) }

/-- One step. -/
def step (sys : System) : Action → System
  | .call call =>
    let storage := call.exec sha256 sys.storage
    { sys with
      storage
      peers := fun i =>
        if returns sha256 sys.storage call then (sys.peers i).changed storage else sys.peers i }
  | .saveState =>
    match sys.storage.protect fun blocksWasm stateWasm =>
      .ok (stateWasm, blocksWasm, stateWasm) with
    | (.ok memory, _) => { sys with stateFile := some memory }
    | (.error _, _) => sys
  | .instantiateStreaming i slowmo =>
    sys.onPeer i (·.instantiateStreaming (sys.stateFile.getD { starterAccount := account }) slowmo)
  | .connect i => sys.onPeer i Peer.connect
  | .onclose i received => sys.onPeer i (·.onclose received)
  | .onmessage i => sys.onPeer i (·.onmessage sha256)
  | .message i => sys.onPeer i (·.message sys.storage)

/-- Any steps. -/
def run (sys : System) (actions : List Action) : System := actions.foldl (step sha256 account) sys

end System

end Sync

end Microchain
