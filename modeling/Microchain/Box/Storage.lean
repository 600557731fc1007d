import Microchain.Starter.MicroChain

/-!
# The box's storage (`subchain-storage.ts`, `Subchain.ts`)

Two instances of the micro chain that are fed the same messages: `blocksWasm` keeps
every block, `stateWasm` is trimmed after every push. An exception in either of them
drops both (`protect`), and every later call throws.

The result buffer matters here only right after a push (`pushJsonBlock` reads it), so
the text that a query leaves in it is not kept.
-/

namespace Microchain.Box

open Eosio Subchain Starter

/-! ## `Subchain` -/

/-- `resultAsUint8Array` -/
def resultAsUint8Array (m : MicroChain) : Bytes :=
  match m.result with
  | .text value => value.toUTF8.toList
  | .bytes value => value

/-- `new Uint32Array(block.buffer, 32, 8)[0]`, which throws when the buffer is too
short for the eight words. -/
def resultNum (block : Bytes) : Except Failure UInt32 :=
  match block.drop 32 with
  | b0 :: b1 :: b2 :: b3 :: rest =>
    if rest.length < 28 then .error (.decode "Invalid typed array length: 8")
    else .ok (b0.toUInt32 ||| (b1.toUInt32 <<< 8) ||| (b2.toUInt32 <<< 16) |||
      (b3.toUInt32 <<< 24))
  | _ => .error (.decode "Invalid typed array length: 8")

/-- The object that `Subchain.pushJsonBlock` returns. -/
structure PushedBlock where
  block : Bytes
  num : UInt32
deriving DecidableEq, Repr

variable (sha256 : Bytes → Checksum256)

/-- `Subchain.pushJsonBlock`. The result of `addEosioBlockJson` is negated: a block that
was added gives `null`. -/
def pushJsonBlock (m : MicroChain) (jsonBlock : Except String EosioBlock)
    (eosioIrreversible : UInt32) : Except Failure (Option PushedBlock × MicroChain) :=
  match (Call.addEosioBlockJson jsonBlock eosioIrreversible).exec sha256 m with
  | (.error e, _) => .error e
  | (.ok added, m) =>
    let ok := !added
    if !ok then .ok (none, m)
    else do
      let num ← resultNum (resultAsUint8Array m)
      .ok (some ⟨resultAsUint8Array m, num⟩, m)

/-- `Subchain.pushShipMessage` -/
def pushShipMessage (m : MicroChain) (message : Except String ShipResult) :
    Except Failure (Bool × MicroChain) :=
  match (Call.pushShipMessage message).exec sha256 m with
  | (.error e, _) => .error e
  | (.ok added, m) => .ok (added, m)

/-! ## `Storage` -/

/-- `Storage` -/
structure Storage where
  blocksWasm : Option MicroChain
  stateWasm : Option MicroChain
  head : Nat := 0

/-- What a method of the storage throws. -/
inductive StorageError where
  /-- "wasm state is corrupt" -/
  | corrupt
  | failure (failure : Failure)
deriving DecidableEq, Repr

namespace Storage

/-- `instantiate` -/
def instantiate (account : Name) : Storage where
  blocksWasm := some { starterAccount := account }
  stateWasm := some { starterAccount := account }

/-- `protect` -/
def protect {α : Type} (s : Storage)
    (f : MicroChain → MicroChain → Except Failure (α × MicroChain × MicroChain)) :
    Except StorageError α × Storage :=
  match s.blocksWasm, s.stateWasm with
  | some blocksWasm, some stateWasm =>
    match f blocksWasm stateWasm with
    | .error e => (.error (.failure e), { s with blocksWasm := none, stateWasm := none })
    | .ok (a, blocksWasm, stateWasm) =>
      (.ok a, { s with blocksWasm := some blocksWasm, stateWasm := some stateWasm })
  | _, _ => (.error .corrupt, s)

/-- `changed`, without the callbacks: the number of the head block. -/
def changed (s : Storage) : Storage :=
  match s.blocksWasm with
  | some m => { s with head := (m.blockLog.head.map (·.num.toNat)).getD 0 }
  | none => s

/-- Run a method, then `changed` unless it threw. -/
def thenChanged {α : Type} (r : Except StorageError α × Storage) : Except StorageError α × Storage :=
  match r with
  | (.error e, s) => (.error e, s)
  | (.ok a, s) => (.ok a, s.changed)

/-- `undoEosioNum` -/
def undoEosioNum (s : Storage) (eosioNum : UInt32) : Except StorageError Unit × Storage :=
  thenChanged <| s.protect fun blocksWasm stateWasm =>
    .ok ((), blocksWasm.undoEosioNum eosioNum, stateWasm.undoEosioNum eosioNum)

/-- `pushJsonBlock` -/
def pushJsonBlock (s : Storage) (jsonBlock : Except String EosioBlock) (irreversible : UInt32) :
    Except StorageError (Option PushedBlock) × Storage :=
  thenChanged <| s.protect fun blocksWasm stateWasm => do
    let (result, blocksWasm) ← Box.pushJsonBlock sha256 blocksWasm jsonBlock irreversible
    let (_, stateWasm) ← Box.pushJsonBlock sha256 stateWasm jsonBlock irreversible
    .ok (result, blocksWasm, stateWasm.trimBlocks)

/-- `pushShipMessage` -/
def pushShipMessage (s : Storage) (shipMessage : Except String ShipResult) :
    Except StorageError Bool × Storage :=
  thenChanged <| s.protect fun blocksWasm stateWasm => do
    let (result, blocksWasm) ← Box.pushShipMessage sha256 blocksWasm shipMessage
    let (_, stateWasm) ← Box.pushShipMessage sha256 stateWasm shipMessage
    .ok (result, blocksWasm, stateWasm.trimBlocks)

end Storage

/-- A call of the storage by a history receiver. -/
inductive StorageCall where
  | pushJsonBlock (jsonBlock : Except String EosioBlock) (irreversible : UInt32)
  | pushShipMessage (shipMessage : Except String ShipResult)
  | undoEosioNum (eosioNum : UInt32)

/-- The storage after a call. -/
def StorageCall.exec (s : Storage) : StorageCall → Storage
  | pushJsonBlock jsonBlock irreversible => (s.pushJsonBlock sha256 jsonBlock irreversible).2
  | pushShipMessage shipMessage => (s.pushShipMessage sha256 shipMessage).2
  | undoEosioNum eosioNum => (s.undoEosioNum eosioNum).2

/-- The call as each instance gets it. -/
def StorageCall.toCall : StorageCall → Call
  | pushJsonBlock jsonBlock irreversible => .addEosioBlockJson jsonBlock irreversible
  | pushShipMessage shipMessage => .pushShipMessage shipMessage
  | undoEosioNum eosioNum => .undoEosioNum eosioNum

/-- The storage after a run of calls. -/
def Storage.run (s : Storage) (calls : List StorageCall) : Storage :=
  calls.foldl (StorageCall.exec sha256) s

end Microchain.Box
