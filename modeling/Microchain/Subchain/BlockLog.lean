import Microchain.Lib.LowerBound
import Microchain.Subchain.Types

/-!
# The block log (`block_log` in `subchain.hpp`)

`blocks` is the vector of linked blocks, oldest first; an iterator is an offset
into it, `blocks.length` being `end()`. Block numbers are `UInt32`, so `num + 1`
and `num - head` wrap as in the source.

Besides the member functions this file holds the statements of the exported
functions that act on the log alone: how `irreversible` is raised, and which
block `undoEosioNum` starts at.
-/

namespace Microchain.Subchain

open Lib

/-- `block_log::status` -/
inductive Status where
  | appended
  | duplicate
  | unlinkable
deriving DecidableEq, Repr

/-- `block_log` -/
structure BlockLog where
  blocks : List BlockWithId := []
  irreversible : UInt32 := 0
deriving DecidableEq, Repr

/-- `get_eosio_num` -/
def getEosioNum (b : BlockWithId) : UInt32 := b.eosioBlock.num

namespace BlockLog

/-- `lower_bound_by_num`: the first block with `num` at least the argument,
computed from the number of the first block. -/
def lowerBoundByNum (log : BlockLog) (num : UInt32) : Nat :=
  match log.blocks with
  | [] => log.blocks.length
  | front :: _ =>
    let head := front.num
    if num ≤ head then 0
    -- the numbers are consecutive, so the offset is the index
    else if (num - head).toNat < log.blocks.length then (num - head).toNat
    else log.blocks.length

/-- `upper_bound_by_num` -/
def upperBoundByNum (log : BlockLog) (num : UInt32) : Nat :=
  if num = ~~~0 then log.blocks.length else log.lowerBoundByNum (num + 1)

/-- `head` -/
def head (log : BlockLog) : Option BlockWithId := log.blocks.getLast?

/-- `block_by_num` -/
def blockByNum (log : BlockLog) (num : UInt32) : Option BlockWithId :=
  (log.blocks[log.lowerBoundByNum num]?).filter (·.num = num)

/-- `std::lower_bound(blocks.begin(), blocks.end(), num, by_eosio_num)` -/
def lowerBoundByEosioNum (log : BlockLog) (num : UInt32) : Nat :=
  lowerBound (fun b => decide (getEosioNum b < num)) log.blocks

/-- `block_by_eosio_num` -/
def blockByEosioNum (log : BlockLog) (num : UInt32) : Option BlockWithId :=
  (log.blocks[log.lowerBoundByEosioNum num]?).filter (getEosioNum · = num)

/-- `it[-1]`, when `it` is not the beginning. -/
def before (log : BlockLog) (it : Nat) : Option BlockWithId :=
  if it = 0 then none else log.blocks[it - 1]?

/-- `block_before_num` -/
def blockBeforeNum (log : BlockLog) (num : UInt32) : Option BlockWithId :=
  log.before (log.lowerBoundByNum num)

/-- `block_before_eosio_num` -/
def blockBeforeEosioNum (log : BlockLog) (num : UInt32) : Option BlockWithId :=
  log.before (log.lowerBoundByEosioNum num)

/-- `add_block`: the status, the number of forked blocks, and the log after. -/
def addBlock (log : BlockLog) (block : BlockWithId) : Status × Nat × BlockLog :=
  let it := log.lowerBoundByNum block.num
  -- the block that has its number now, if any, is forked with all behind it
  if (log.blocks[it]?).any (fun b => block.id = b.id) then
    (.duplicate, 0, log)
  else if it = 0 ∧ block.num ≠ 1 then
    (.unlinkable, 0, log)
  else if (log.before it).any (fun b => block.previous ≠ b.id ∨ block.num ≠ b.num + 1) then
    (.unlinkable, 0, log)
  -- a final block is not forked
  else if (log.blocks[it]?).any (fun b => b.num ≤ log.irreversible) then
    (.unlinkable, 0, log)
  else
    (.appended, log.blocks.length - it,
      { log with blocks := log.blocks.take it ++ [block] })

/-- `undo`: the number of removed blocks and the log after. -/
def undo (log : BlockLog) (blockNum : UInt32) : Nat × BlockLog :=
  if blockNum ≤ log.irreversible then (0, log)
  else
    let it := log.lowerBoundByNum blockNum
    if (log.blocks[it]?).any (fun b => b.num = blockNum) then
      (log.blocks.length - it, { log with blocks := log.blocks.take it })
    else (0, log)

/-- `trim` -/
def trim (log : BlockLog) : BlockLog :=
  { log with blocks := log.blocks.drop (log.lowerBoundByNum log.irreversible) }

/-! ## What the exported functions do to the log -/

/-- `if (auto* b = ...) block_log.irreversible = std::max(block_log.irreversible, b->num);` -/
def raiseIrreversible (log : BlockLog) : Option BlockWithId → BlockLog
  | some b => { log with irreversible := max log.irreversible b.num }
  | none => log

/-- The log half of `add_block(block_with_id&&, uint32_t)`: append, then raise
`irreversible` to the last block at or below `eosio_irreversible`. -/
def addBlockIrreversible (log : BlockLog) (block : BlockWithId) (eosioIrreversible : UInt32) :
    Status × Nat × BlockLog :=
  match log.addBlock block with
  | (.appended, numForked, log) =>
    (.appended, numForked, log.raiseIrreversible (log.blockBeforeEosioNum (eosioIrreversible + 1)))
  | r => r

/-- The log half of `setIrreversible`. -/
def setIrreversible (log : BlockLog) (irreversible : UInt32) : BlockLog :=
  log.raiseIrreversible (log.blockBeforeNum (irreversible + 1))

/-- The log half of `undoEosioNum`. -/
def undoEosioNum (log : BlockLog) (eosioNum : UInt32) : Nat × BlockLog :=
  match log.blockByEosioNum eosioNum with
  | some b => log.undo b.num
  | none => (0, log)

end BlockLog

/-- The block-log operations behind the exported functions. -/
inductive LogOp where
  | addBlock (block : BlockWithId) (eosioIrreversible : UInt32)
  | setIrreversible (irreversible : UInt32)
  | trimBlocks
  | undoBlockNum (blockNum : UInt32)
  | undoEosioNum (eosioNum : UInt32)
deriving DecidableEq, Repr

/-- The log after one operation. -/
def LogOp.apply (log : BlockLog) : LogOp → BlockLog
  | .addBlock block eosioIrreversible => (log.addBlockIrreversible block eosioIrreversible).2.2
  | .setIrreversible irreversible => log.setIrreversible irreversible
  | .trimBlocks => log.trim
  | .undoBlockNum blockNum => (log.undo blockNum).2
  | .undoEosioNum eosioNum => (log.undoEosioNum eosioNum).2

/-- The log after a run of operations. -/
def runLog (log : BlockLog) (ops : List LogOp) : BlockLog := ops.foldl LogOp.apply log

end Microchain.Subchain
