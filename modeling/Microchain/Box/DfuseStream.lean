import Microchain.Box.Dfuse

/-!
# The stream and the files of the dfuse receiver (`dfuse-receiver.ts`)

The receiver keeps the messages that it has pushed (`jsonTransactions`), writes them to a
file from time to time, and pushes them again when the box starts. Each message has a
cursor, from which a later subscription goes on. Both files are written under another name
and renamed, so a process that ends while it writes one leaves that one as it was.

dfuse is modelled by the messages that a subscription without a cursor gets (`DfuseSystem`).
The log output and `stream.mark` (which only dfuse's own client reads) are left out, and
`connect` is one step: no message comes before it has returned.
-/

namespace Microchain.Box

open Eosio Subchain Starter

/-- `JsonTrx` with its cursor. -/
structure StreamTrx extends JsonTrx where
  cursor : String := ""
deriving DecidableEq, Repr

/-- `GraphqlStreamMessage` -/
inductive StreamMessage where
  | data (trx : StreamTrx)
  | complete
  | error
  | other
deriving DecidableEq, Repr

/-- The files that the box leaves behind. -/
structure Files where
  jsonTrxFile : Option (List StreamTrx) := none
  stateFile : Option MicroChain := none

/-- `DfuseReceiver` with its stream and its files. -/
structure StreamReceiver where
  receiver : DfuseReceiver
  stream : Bool := false
  jsonTransactions : List StreamTrx := []
  numSaved : Nat := 0
  /-- `variables.cursor` -/
  cursor : String := ""
  files : Files := {}
  /-- A timer that connects again. -/
  scheduled : Bool := false

/-- Whether a message is pushed: it has a trace, or is the marker of a later block behind
a transaction. -/
def pushes (prev : Option StreamTrx) (trx : StreamTrx) : Bool :=
  trx.trace.isSome ||
    prev.any fun prev => prev.trace.isSome && decide (prev.block.num < trx.block.num)

namespace StreamReceiver

variable (sha256 : Bytes → Checksum256)

/-- `this.storage.saveState()` -/
def saveState (r : StreamReceiver) : Except ReceiverError Unit × StreamReceiver :=
  match r.receiver.storage.protect fun blocksWasm stateWasm =>
      .ok (stateWasm, blocksWasm, stateWasm) with
  | (.error e, storage) =>
    (.error (.storage e), { r with receiver := { r.receiver with storage } })
  | (.ok memory, storage) =>
    (.ok (), { r with
      receiver := { r.receiver with storage }
      files := { r.files with stateFile := some memory } })

/-- Write both files. -/
def save (r : StreamReceiver) : Except ReceiverError Unit × StreamReceiver :=
  match { r with files := { r.files with jsonTrxFile := some r.jsonTransactions } }.saveState with
  | (.error e, r) => (.error e, r)
  | (.ok _, r) => (.ok (), { r with numSaved := r.jsonTransactions.length })

/-- `disconnect` -/
def disconnect (r : StreamReceiver) : StreamReceiver := { r with stream := false }

/-- `onMessage` for data, up to its `catch`. -/
def onData (r : StreamReceiver) (trx : StreamTrx) : Except ReceiverError Unit × StreamReceiver :=
  if pushes r.jsonTransactions.getLast? trx then
    let r := { r with jsonTransactions := r.jsonTransactions ++ [trx] }
    match r.receiver.pushTrx sha256 trx.toJsonTrx with
    | (.error e, receiver) => (.error e, { r with receiver })
    | (.ok _, receiver) =>
      let r := { r with receiver }
      if r.jsonTransactions.length - r.numSaved > 10 || trx.trace.isNone then r.save
      else (.ok (), r)
  else (.ok (), r)

/-- `onMessage` -/
def onMessage (r : StreamReceiver) : StreamMessage → StreamReceiver
  | .data trx =>
    match r.onData sha256 trx with
    | (.ok _, r) => r
    | (.error _, r) => r.disconnect
  | .complete => { r.disconnect with scheduled := true }
  | .error => r
  | .other => r

/-- `connect`, where `succeeds` says whether dfuse can be reached. -/
def connect (r : StreamReceiver) (succeeds : Bool) : StreamReceiver :=
  if r.stream then r
  else
    let r := { r with cursor := (r.jsonTransactions.getLast?.map StreamTrx.cursor).getD r.cursor }
    if succeeds then { r with stream := true } else { r with scheduled := true }

/-- `start`, on the files that are there; `none` where the process exits. -/
def start (account : Name) (files : Files) (preventConnect succeeds : Bool) :
    Option StreamReceiver :=
  let jsonTransactions := files.jsonTrxFile.getD []
  let r : StreamReceiver :=
    { receiver := DfuseReceiver.start account
      jsonTransactions
      numSaved := jsonTransactions.length
      files }
  match r.receiver.pushTrxs sha256 (jsonTransactions.map (·.toJsonTrx)) with
  | (.error _, _) => none
  | (.ok _, receiver) =>
    match { r with receiver }.saveState with
    | (.error _, _) => none
    | (.ok _, r) => some (if preventConnect then r else r.connect succeeds)

end StreamReceiver

/-! ## The receiver and dfuse -/

/-- Where a subscription goes on: behind the message with the cursor. -/
def resume (log : List StreamTrx) (cursor : String) : Nat :=
  if cursor = "" then 0 else log.findIdx (fun trx => trx.cursor == cursor) + 1

/-- The receiver, if its process runs, and how many messages its subscription is past. -/
structure DfuseSystem where
  process : Option StreamReceiver := none
  files : Files := {}
  position : Nat := 0

/-- What can happen. -/
inductive DfuseAction where
  /-- dfuse sends the next message. -/
  | deliver
  /-- dfuse sends a message other than data. -/
  | notice (complete : Bool)
  /-- The timer of the receiver fires. -/
  | retry (succeeds : Bool)
  /-- The process ends. -/
  | crash
  /-- The process ends at the next message, when the journal has been renamed and the state
  file has not. -/
  | crashSaving
  /-- The box is started again. -/
  | restart (preventConnect succeeds : Bool)
deriving DecidableEq, Repr

namespace DfuseSystem

variable (sha256 : Bytes → Checksum256) (account : Name) (log : List StreamTrx)

/-- Take over the receiver; a subscription that is opened goes on behind its cursor. -/
def update (sys : DfuseSystem) (r r' : StreamReceiver) : DfuseSystem where
  process := some r'
  files := r'.files
  position := if !r.stream && r'.stream then resume log r'.cursor else sys.position

/-- One step; only a process that runs and is subscribed gets messages. -/
def step (sys : DfuseSystem) : DfuseAction → DfuseSystem
  | .deliver =>
    match sys.process, log[sys.position]? with
    | some r, some trx =>
      if r.stream then
        { sys.update log r (r.onMessage sha256 (.data trx)) with position := sys.position + 1 }
      else sys
    | _, _ => sys
  | .notice complete =>
    match sys.process with
    | some r =>
      if r.stream then
        sys.update log r (r.onMessage sha256 (if complete then .complete else .error))
      else sys
    | none => sys
  | .retry succeeds =>
    match sys.process with
    | some r =>
      if r.scheduled then sys.update log r ({ r with scheduled := false }.connect succeeds) else sys
    | none => sys
  | .crash => { sys with process := none }
  | .crashSaving =>
    match sys.process, log[sys.position]? with
    | some r, some trx =>
      if r.stream then
        { sys with
          process := none
          files := { sys.files with
            jsonTrxFile := (r.onMessage sha256 (.data trx)).files.jsonTrxFile } }
      else sys
    | _, _ => sys
  | .restart preventConnect succeeds =>
    match sys.process with
    | some _ => sys
    | none =>
      match StreamReceiver.start sha256 account sys.files preventConnect succeeds with
      | none => sys
      | some r =>
        { process := some r
          files := r.files
          position := if r.stream then resume log r.cursor else sys.position }

/-- Any steps. -/
def run (sys : DfuseSystem) (actions : List DfuseAction) : DfuseSystem :=
  actions.foldl (step sha256 account log) sys

end DfuseSystem

end Microchain.Box
