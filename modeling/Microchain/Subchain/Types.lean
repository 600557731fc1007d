import Microchain.Eosio.Name

/-!
# Block types (`subchain.hpp`)

The records of the micro chain with their binary encoding. The id of a block is
the hash of the encoding of everything else in it, so the encoders follow the
field order of the `EOSIO_REFLECT` lists; `block_with_id` reflects its id before
its base.
-/

namespace Microchain.Subchain

open Eosio

/-- `subchain::creator_action` -/
structure CreatorAction where
  seq : UInt64
  receiver : Name
deriving DecidableEq, Repr

/-- `subchain::action` -/
structure Action where
  seq : UInt64 := 0
  firstReceiver : Name := {}
  receiver : Name := {}
  name : Name := {}
  creatorAction : Option CreatorAction := none
  hexData : Bytes := []
deriving DecidableEq, Repr

/-- `subchain::transaction` -/
structure Transaction where
  id : Checksum256 := {}
  actions : List Action := []
deriving DecidableEq, Repr

/-- `subchain::eosio_block` -/
structure EosioBlock where
  num : UInt32 := 0
  id : Checksum256 := {}
  previous : Checksum256 := {}
  timestamp : TimePoint := {}
  transactions : List Transaction := []
deriving DecidableEq, Repr

/-- `subchain::block` -/
structure Block where
  num : UInt32 := 0
  previous : Checksum256 := {}
  eosioBlock : EosioBlock := {}
deriving DecidableEq, Repr

/-- `subchain::block_with_id` -/
structure BlockWithId extends Block where
  id : Checksum256 := {}
deriving DecidableEq, Repr

def creatorActionToBin (a : CreatorAction) : Bytes := uint64ToBin a.seq ++ nameToBin a.receiver

def actionToBin (a : Action) : Bytes :=
  uint64ToBin a.seq ++ nameToBin a.firstReceiver ++ nameToBin a.receiver ++ nameToBin a.name ++
    optionalToBin creatorActionToBin a.creatorAction ++ bytesToBin a.hexData

def transactionToBin (t : Transaction) : Bytes :=
  checksum256ToBin t.id ++ vectorToBin actionToBin t.actions

def eosioBlockToBin (b : EosioBlock) : Bytes :=
  uint32ToBin b.num ++ checksum256ToBin b.id ++ checksum256ToBin b.previous ++
    timePointToBin b.timestamp ++ vectorToBin transactionToBin b.transactions

def blockToBin (b : Block) : Bytes :=
  uint32ToBin b.num ++ checksum256ToBin b.previous ++ eosioBlockToBin b.eosioBlock

def blockWithIdToBin (b : BlockWithId) : Bytes :=
  checksum256ToBin b.id ++ blockToBin b.toBlock

end Microchain.Subchain
