import Microchain.Eosio.Name

/-!
# State-history messages (`ship_protocol.hpp`)

The decoded messages of the state-history plugin, with the fields the micro chain
reads. Both versions of an action trace have these fields, and a receipt has one
version, so the variants are one record each.
-/

namespace Microchain.Eosio

/-- `block_position` -/
structure BlockPosition where
  blockNum : UInt32 := 0
  blockId : Checksum256 := {}
deriving DecidableEq, Repr

/-- `transaction_status` -/
inductive TransactionStatus where
  | executed
  | softFail
  | hardFail
  | delayed
  | expired
deriving DecidableEq, Repr

/-- `action_receipt_v0` -/
structure ActionReceipt where
  globalSequence : UInt64 := 0
deriving DecidableEq, Repr

/-- `ship_protocol::action` -/
structure ShipAction where
  account : Name := {}
  name : Name := {}
  data : Bytes := []
deriving DecidableEq, Repr

/-- `action_trace_v0`, `action_trace_v1` -/
structure ActionTrace where
  actionOrdinal : UInt32 := 0
  creatorActionOrdinal : UInt32 := 0
  receipt : Option ActionReceipt := none
  receiver : Name := {}
  act : ShipAction := {}
deriving DecidableEq, Repr

/-- `transaction_trace_v0` -/
structure TransactionTrace where
  id : Checksum256 := {}
  status : TransactionStatus := .executed
  actionTraces : List ActionTrace := []
deriving DecidableEq, Repr

/-- `get_blocks_result_v0`, the block and the traces decoded. -/
structure GetBlocksResult where
  lastIrreversible : BlockPosition := {}
  thisBlock : Option BlockPosition := none
  prevBlock : Option BlockPosition := none
  timestamp : BlockTimestamp := {}
  traces : List TransactionTrace := []
deriving DecidableEq, Repr

/-- `ship_protocol::result` -/
inductive ShipResult where
  | getStatusResult
  | getBlocksResult (result : GetBlocksResult)
deriving DecidableEq, Repr

end Microchain.Eosio
