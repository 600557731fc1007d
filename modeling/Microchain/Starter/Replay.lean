import Microchain.Starter.GreetingTable
import Microchain.Subchain.Trimmed

/-!
# The database is a replay of the chain

The log and the table are two structures that only the number of undone and
committed sessions keeps together. `ChainInv` says what they have in common: the
chain is the blocks that `trimBlocks` removed followed by those in the log, the
table stands for the replay of the whole chain, and its copies are the replays of
the chain's prefixes from `irreversible` on (`replayTable`). So a fork of `n` blocks
undoes `n` sessions and an advance of `irreversible` commits exactly the sessions
that became final.

- `ChainInv.fork`, `ChainInv.raise`, `ChainInv.trimBlocks`,
  `ChainInv.addBlockWithId`: the steps.
- `ChainRun.run_inv`: whole runs, from which `run_replay` reads the rows and
  `run_depth` the revision and the depth of the undo stack.
-/

namespace Microchain.Starter

open Eosio Subchain Chainbase BlockLog

/-! ## Replaying a chain -/

/-- `filter_block` on every block of a chain, in order. -/
def replay (starterAccount : Name) (table : GreetingIndex) :
    List BlockWithId → Except String Unit × GreetingIndex
  | [] => (.ok (), table)
  | block :: chain =>
    match filterBlock starterAccount table block.eosioBlock with
    | (.error e, table) => (.error e, table)
    | (.ok _, table) => replay starterAccount table chain

/-- The rows after a chain, from none. -/
def replaySnapshot (starterAccount : Name) (chain : List BlockWithId) : Snapshot Greeting :=
  chain.foldl (fun s block => filterSnapshot starterAccount s block.eosioBlock) .empty

/-- The positions of a chain from `irreversible` on, the last one first. -/
def reversible (irreversible length : Nat) : List Nat :=
  ((List.range length).filter (irreversible ≤ ·)).reverse

/-- The copy from before the block at position `i`, whose number is `i + 1`. -/
def copyBefore (starterAccount : Name) (chain : List BlockWithId) (i : Nat) : Copy Greeting where
  revision := i + 1
  table := replaySnapshot starterAccount (chain.take i)

/-- The table of a chain: a copy from before each block above `irreversible`. -/
def replayTable (starterAccount : Name) (chain : List BlockWithId) (irreversible : Nat) :
    SnapshotTable Greeting where
  current := replaySnapshot starterAccount chain
  copies := (reversible irreversible chain.length).map (copyBefore starterAccount chain)
  revision := chain.length

theorem reversible_length (irreversible length : Nat) :
    (reversible irreversible length).length = length - irreversible := by
  rw [reversible, List.length_reverse]
  induction length with
  | zero => simp
  | succ n ih =>
    rw [List.range_succ, List.filter_append, List.length_append, ih]
    by_cases h : irreversible ≤ n <;> simp [h] <;> omega

theorem reversible_succ {irreversible length : Nat} (h : irreversible ≤ length) :
    reversible irreversible (length + 1) = length :: reversible irreversible length := by
  simp [reversible, List.range_succ, h]

theorem reversible_eq_nil {irreversible length : Nat} (h : length ≤ irreversible) :
    reversible irreversible length = [] := by
  rw [← List.length_eq_zero_iff, reversible_length]
  omega

section ReplayTable

variable {starterAccount : Name} {chain : List BlockWithId} {irreversible : Nat}

theorem replaySnapshot_append (block : BlockWithId) :
    replaySnapshot starterAccount (chain ++ [block]) =
      filterSnapshot starterAccount (replaySnapshot starterAccount chain) block.eosioBlock := by
  simp [replaySnapshot]

/-- The copies from before the blocks of `chain` are the same in a longer chain. -/
theorem copyBefore_append (block : BlockWithId) :
    (reversible irreversible chain.length).map (copyBefore starterAccount (chain ++ [block])) =
      (reversible irreversible chain.length).map (copyBefore starterAccount chain) := by
  refine List.map_congr_left fun i hi => ?_
  have hlt : i < chain.length := by
    simp only [reversible, List.mem_reverse, List.mem_filter, List.mem_range] at hi
    exact hi.1
  rw [copyBefore, copyBefore, List.take_append_of_le_length (Nat.le_of_lt hlt)]

/-- A session and then a block. -/
theorem replayTable_append_of_le (block : BlockWithId) (h : irreversible ≤ chain.length) :
    { (replayTable starterAccount chain irreversible).startSession with
      current := filterSnapshot starterAccount
        (replaySnapshot starterAccount chain) block.eosioBlock } =
      replayTable starterAccount (chain ++ [block]) irreversible := by
  rw [replayTable, replayTable, replaySnapshot_append, List.length_append, List.length_singleton,
    reversible_succ h, List.map_cons, copyBefore_append block, copyBefore, List.take_left]
  rfl

/-- A block without a session, and the revision set to its number. -/
theorem replayTable_append_of_lt (block : BlockWithId) (h : chain.length < irreversible) :
    { replayTable starterAccount chain irreversible with
      current := filterSnapshot starterAccount
        (replaySnapshot starterAccount chain) block.eosioBlock
      revision := ((chain.length + 1 : Nat) : Int) } =
      replayTable starterAccount (chain ++ [block]) irreversible := by
  rw [replayTable, replayTable, replaySnapshot_append, List.length_append, List.length_singleton,
    reversible_eq_nil (by omega), reversible_eq_nil (by omega)]
  rfl

/-- Undoing takes off the last block, if it is reversible. -/
theorem replayTable_undo (block : BlockWithId) (h : irreversible ≤ chain.length) :
    (replayTable starterAccount (chain ++ [block]) irreversible).undo =
      replayTable starterAccount chain irreversible := by
  rw [← replayTable_append_of_le block h]
  simp [SnapshotTable.undo, SnapshotTable.startSession, replayTable]

/-- Undoing `n` times takes off the last `n` blocks. -/
theorem replayTable_undo_iterate (n : Nat) (h : irreversible + n ≤ chain.length) :
    SnapshotTable.undo^[n] (replayTable starterAccount chain irreversible) =
      replayTable starterAccount (chain.take (chain.length - n)) irreversible := by
  induction n generalizing chain with
  | zero => simp
  | succ n ih =>
    obtain ⟨front, block, rfl⟩ := List.eq_nil_or_concat' chain |>.resolve_left fun hnil => by
      simp [hnil] at h
    rw [List.length_append, List.length_singleton] at h ⊢
    rw [Function.iterate_succ_apply, replayTable_undo block (by omega), ih (by omega),
      List.take_append_of_le_length (by omega), show front.length + 1 - (n + 1) = front.length - n by
        omega]

/-- Committing drops the copies up to the new `irreversible`. -/
theorem replayTable_commit {irreversible' : Nat} (h : irreversible ≤ irreversible') :
    (replayTable starterAccount chain irreversible).commit irreversible' =
      replayTable starterAccount chain irreversible' := by
  have hfilter : (reversible irreversible chain.length).filter (irreversible' ≤ ·) =
      reversible irreversible' chain.length := by
    rw [reversible, reversible, List.filter_reverse, List.filter_filter]
    refine congrArg _ (List.filter_congr fun i _ => ?_)
    rw [← Bool.decide_and, decide_eq_decide]
    omega
  simp only [SnapshotTable.commit, replayTable, SnapshotTable.mk.injEq, true_and, and_true]
  rw [List.filter_map, ← hfilter]
  refine congrArg _ (List.filter_congr fun i _ => ?_)
  show decide ((irreversible' : Int) < i + 1) = decide (irreversible' ≤ i)
  rw [decide_eq_decide]
  omega

end ReplayTable

theorem nextBlock_eosioBlock (log : BlockLog) (eosioBlock : EosioBlock) :
    (MicroChain.nextBlock log eosioBlock).eosioBlock = eosioBlock := by
  rw [MicroChain.nextBlock]
  split <;> rfl

/-! ## The invariant -/

/-- What the log and the table have in common. `trimmed` are the blocks that
`trimBlocks` removed. -/
structure ChainInv (starterAccount : Name) (trimmed : List BlockWithId) (m : MicroChain) :
    Prop where
  account : m.starterAccount = starterAccount
  log : m.blockLog.WellFormed
  linked : (trimmed ++ m.blockLog.blocks).IsChain Linked
  first : ∀ block ∈ (trimmed ++ m.blockLog.blocks).head?, block.num = 1
  final : trimmed = [] ∨ trimmed.length < m.blockLog.irreversible.toNat
  decodes : ∀ block ∈ trimmed ++ m.blockLog.blocks, Decodes starterAccount block.eosioBlock
  table : TableRefines m.db.greetings
    (replayTable starterAccount (trimmed ++ m.blockLog.blocks) m.blockLog.irreversible.toNat)

/-- The number of the head block, 0 for an empty log. -/
def headNum (log : BlockLog) : Nat := (log.head.map (·.num.toNat)).getD 0

/-- Block `i` of a chain that starts at 1 has the number `i + 1`. -/
theorem num_chain {chain : List BlockWithId} (hlinked : chain.IsChain Linked)
    (hfirst : ∀ block ∈ chain.head?, block.num = 1) {i : Nat} (hi : i < chain.length) :
    (chain[i]).num.toNat = i + 1 := by
  have h0 : 0 < chain.length := Nat.zero_lt_of_lt hi
  have hone : (chain[0]).num = 1 := hfirst _ (by rw [List.head?_eq_getElem?]; simp [h0])
  rw [num_getElem hlinked hi, hone]
  exact Nat.add_comm 1 i

/-- The undos of `forked_n_blocks` each find an undo state. -/
def Undoable (table : GreetingIndex) (n : Nat) : Prop :=
  ∀ k < n, (UndoIndex.undo^[k] table).undoStack ≠ []

theorem TableRefines.undo_iterate {u : GreetingIndex} {t : SnapshotTable Greeting}
    (h : TableRefines u t) (n : Nat) :
    TableRefines (UndoIndex.undo^[n] u) (SnapshotTable.undo^[n] t) := by
  induction n generalizing u t with
  | zero => exact h
  | succ n ih => exact ih h.undo

theorem MicroChain.forkedNBlocks_eq (m : MicroChain) (n : Nat) :
    m.forkedNBlocks n = { m with db := ⟨UndoIndex.undo^[n] m.db.greetings⟩ } := by
  induction n generalizing m with
  | zero => rfl
  | succ n ih =>
    rw [forkedNBlocks, ih]
    rfl

namespace MicroChain

theorem undoBlockNum_blockLog (m : MicroChain) (blockNum : UInt32) :
    (m.undoBlockNum blockNum).blockLog = (m.blockLog.undo blockNum).2 := by
  rw [undoBlockNum]
  rcases m.blockLog.undo blockNum with ⟨n, log⟩
  dsimp only
  rw [forkedNBlocks_eq]

theorem undoEosioNum_blockLog (m : MicroChain) (eosioNum : UInt32) :
    (m.undoEosioNum eosioNum).blockLog = (m.blockLog.undoEosioNum eosioNum).2 := by
  rw [undoEosioNum]
  rcases m.blockLog.undoEosioNum eosioNum with ⟨n, log⟩
  dsimp only
  rw [forkedNBlocks_eq]

variable {m : MicroChain} {bi : BlockWithId} {eosioIrreversible : UInt32} {numForked : Nat}
  {log log' : BlockLog}

/-- The log that `add_block` leaves when it appends. -/
def addedLog (log : BlockLog) (eosioIrreversible : UInt32) : BlockLog :=
  log.raiseIrreversible (log.blockBeforeEosioNum (eosioIrreversible + 1))

/-- The table of `add_block` after the fork and the commit. -/
def committed (m : MicroChain) (numForked : Nat) (irreversible : UInt32) : GreetingIndex :=
  (UndoIndex.undo^[numForked] m.db.greetings).commit irreversible.toNat

/-- `add_block` of a block that stays reversible: under a session. -/
theorem addBlockWithId_of_reversible (heq : m.blockLog.addBlock bi = (.appended, numForked, log))
    (hlog : addedLog log eosioIrreversible = log') (hneed : log'.irreversible < bi.num) :
    m.addBlockWithId bi eosioIrreversible =
      match filterBlock m.starterAccount
        (m.committed numForked log'.irreversible).addSession bi.eosioBlock with
      | (.error e, greetings) =>
        (.error (.filterBlock e), { m with blockLog := log', db := ⟨greetings.undo⟩ })
      | (.ok _, greetings) => (.ok true, { m with blockLog := log', db := ⟨greetings⟩ }) := by
  simp only [addBlockWithId, heq, forkedNBlocks_eq]
  rw [show log.raiseIrreversible (log.blockBeforeEosioNum (eosioIrreversible + 1)) = log'
    from hlog, decide_eq_true hneed]
  rfl

/-- `add_block` of a block that is final at once: without a session. -/
theorem addBlockWithId_of_final (heq : m.blockLog.addBlock bi = (.appended, numForked, log))
    (hlog : addedLog log eosioIrreversible = log') (hneed : ¬ log'.irreversible < bi.num) :
    m.addBlockWithId bi eosioIrreversible =
      match filterBlock m.starterAccount (m.committed numForked log'.irreversible)
        bi.eosioBlock with
      | (.error e, greetings) =>
        (.error (.filterBlock e), { m with blockLog := log', db := ⟨greetings⟩ })
      | (.ok _, greetings) =>
        match greetings.setRevision bi.num.toNat with
        | .error e => (.error (.setRevision e), { m with blockLog := log', db := ⟨greetings⟩ })
        | .ok greetings => (.ok true, { m with blockLog := log', db := ⟨greetings⟩ }) := by
  simp only [addBlockWithId, heq, forkedNBlocks_eq]
  rw [show log.raiseIrreversible (log.blockBeforeEosioNum (eosioIrreversible + 1)) = log'
    from hlog, decide_eq_false hneed]
  simp only [Database.startUndoSession, Bool.false_eq_true, if_false, Database.commit]
  rw [show (UndoIndex.undo^[numForked] m.db.greetings).commit log'.irreversible.toNat =
    m.committed numForked log'.irreversible from rfl]
  rcases filterBlock m.starterAccount _ bi.eosioBlock with ⟨e | _, greetings⟩
  · rfl
  · simp only [Database.setRevision]
    cases greetings.setRevision bi.num.toNat <;> rfl

/-- The log half of `add_block` does not depend on the table. -/
theorem addBlockWithId_blockLog (m : MicroChain) (bi : BlockWithId) (eosioIrreversible : UInt32) :
    (m.addBlockWithId bi eosioIrreversible).2.blockLog =
      (m.blockLog.addBlockIrreversible bi eosioIrreversible).2.2 := by
  rw [BlockLog.addBlockIrreversible]
  rcases heq : m.blockLog.addBlock bi with ⟨st, numForked, log⟩
  cases st with
  | duplicate => simp only [addBlockWithId, heq]
  | unlinkable => simp only [addBlockWithId, heq]
  | appended =>
    show _ = addedLog log eosioIrreversible
    by_cases hneed : (addedLog log eosioIrreversible).irreversible < bi.num
    · rw [addBlockWithId_of_reversible heq rfl hneed]
      split <;> rfl
    · rw [addBlockWithId_of_final heq rfl hneed]
      split
      · rfl
      · split <;> rfl

end MicroChain

namespace ChainInv

variable {starterAccount : Name} {trimmed : List BlockWithId} {m : MicroChain}

/-- The number of a block of the log. -/
theorem num (h : ChainInv starterAccount trimmed m) {i : Nat}
    (hi : i < m.blockLog.blocks.length) :
    (m.blockLog.blocks[i]).num.toNat = trimmed.length + i + 1 := by
  have hlt : trimmed.length + i < (trimmed ++ m.blockLog.blocks).length := by
    rw [List.length_append]
    omega
  have hnum := num_chain h.linked h.first hlt
  simpa [List.getElem_append_right] using hnum

/-- `irreversible` is not above the head. -/
theorem irreversible_le (h : ChainInv starterAccount trimmed m) :
    m.blockLog.irreversible.toNat ≤ trimmed.length + m.blockLog.blocks.length := by
  rcases h.log.irreversible_mem with h0 | ⟨block, hblock, hnum⟩
  · rw [h0]
    exact Nat.zero_le _
  · obtain ⟨i, hi, rfl⟩ := List.mem_iff_getElem.mp hblock
    rw [← hnum, h.num hi]
    omega

/-- Nothing has been trimmed from a log that is empty. -/
theorem trimmed_eq_nil (h : ChainInv starterAccount trimmed m)
    (h0 : m.blockLog.irreversible = 0) : trimmed = [] := by
  refine h.final.resolve_right fun hlt => ?_
  rw [h0] at hlt
  exact Nat.not_lt_zero _ hlt

theorem headNum_eq (h : ChainInv starterAccount trimmed m) :
    headNum m.blockLog = (trimmed ++ m.blockLog.blocks).length := by
  rw [headNum, BlockLog.head, List.getLast?_eq_getElem?, List.length_append]
  by_cases hlen : m.blockLog.blocks.length = 0
  · have hnil := List.eq_nil_of_length_eq_zero hlen
    have h0 : m.blockLog.irreversible = 0 :=
      h.log.irreversible_mem.resolve_right (by simp [hnil])
    simp [hnil, h.trimmed_eq_nil h0]
  · have hlast : m.blockLog.blocks.length - 1 < m.blockLog.blocks.length := by omega
    rw [List.getElem?_eq_getElem hlast, Option.map_some, Option.getD_some, h.num hlast]
    omega

/-- The revision and the depth of the undo stack. -/
theorem revision_eq (h : ChainInv starterAccount trimmed m) :
    m.db.greetings.revision = headNum m.blockLog := by
  rw [h.headNum_eq]
  exact h.table.revision

theorem depth_eq (h : ChainInv starterAccount trimmed m) :
    m.db.greetings.undoStack.length = headNum m.blockLog - m.blockLog.irreversible.toNat := by
  rw [h.table.length_eq, replayTable, List.length_map, reversible_length, h.headNum_eq]

/-! ### Forks -/

/-- The position of a fork is not below `irreversible`. -/
theorem irreversible_le_fork (h : ChainInv starterAccount trimmed m) {it : Nat}
    (hle : it ≤ m.blockLog.blocks.length)
    (hfork : ∀ i (hi : i < m.blockLog.blocks.length), it ≤ i →
      m.blockLog.irreversible < m.blockLog.blocks[i].num) :
    m.blockLog.irreversible.toNat ≤ trimmed.length + it := by
  rcases Nat.eq_or_lt_of_le hle with rfl | hlt
  · exact h.irreversible_le
  · have hirr := hfork it hlt (Nat.le_refl it)
    rw [UInt32.lt_iff_toNat_lt, h.num hlt] at hirr
    omega

/-- The undos of a fork each find an undo state. -/
theorem undoable (h : ChainInv starterAccount trimmed m) {it : Nat}
    (hle : it ≤ m.blockLog.blocks.length)
    (hfork : ∀ i (hi : i < m.blockLog.blocks.length), it ≤ i →
      m.blockLog.irreversible < m.blockLog.blocks[i].num) :
    Undoable m.db.greetings (m.blockLog.blocks.length - it) := by
  intro k hk hnil
  have hirr := h.irreversible_le_fork hle hfork
  have htable := h.table.undo_iterate k
  rw [replayTable_undo_iterate k (by rw [List.length_append]; omega)] at htable
  have hlen := htable.length_eq
  rw [hnil, replayTable, List.length_map, reversible_length, List.length_take,
    List.length_append, List.length_nil] at hlen
  omega

/-- **A fork**: dropping blocks from the log and undoing as many sessions. -/
theorem fork (h : ChainInv starterAccount trimmed m) {it : Nat}
    (hle : it ≤ m.blockLog.blocks.length)
    (hfork : ∀ i (hi : i < m.blockLog.blocks.length), it ≤ i →
      m.blockLog.irreversible < m.blockLog.blocks[i].num) :
    ChainInv starterAccount trimmed
      ({ m with blockLog := { m.blockLog with
          blocks := m.blockLog.blocks.take it } }.forkedNBlocks
        (m.blockLog.blocks.length - it)) := by
  have hirr := h.irreversible_le_fork hle hfork
  have htake : trimmed ++ m.blockLog.blocks.take it =
      (trimmed ++ m.blockLog.blocks).take (trimmed.length + it) := by
    rw [List.take_append, List.take_of_length_le (Nat.le_add_right _ _), Nat.add_sub_cancel_left]
  rw [MicroChain.forkedNBlocks_eq]
  refine ⟨h.account, h.log.take hfork, ?_, fun block hblock => ?_, h.final,
    fun block hblock => ?_, ?_⟩
  · dsimp only
    rw [htake]
    exact h.linked.take _
  · dsimp only at hblock
    rw [htake, List.head?_take] at hblock
    split at hblock
    · exact absurd hblock (by simp)
    · exact h.first block hblock
  · dsimp only at hblock
    rw [htake] at hblock
    exact h.decodes block (List.mem_of_mem_take hblock)
  · -- the database undoes one session for each block that is gone
    have htable := h.table.undo_iterate (m.blockLog.blocks.length - it)
    rw [replayTable_undo_iterate _ (by rw [List.length_append]; omega)] at htable
    dsimp only
    rwa [htake, show trimmed.length + it = (trimmed ++ m.blockLog.blocks).length -
      (m.blockLog.blocks.length - it) by rw [List.length_append]; omega]

/-! ### Irreversibility and trimming -/

/-- **An advance of `irreversible`** commits the sessions up to it. -/
theorem raise (h : ChainInv starterAccount trimmed m) {block : Option BlockWithId}
    (hblock : ∀ b ∈ block, b ∈ m.blockLog.blocks) :
    ChainInv starterAccount trimmed
      { m with
        blockLog := m.blockLog.raiseIrreversible block
        db := m.db.commit (m.blockLog.raiseIrreversible block).irreversible.toNat } := by
  have hle := UInt32.le_iff_toNat_le.mp (irreversible_le_raiseIrreversible m.blockLog block)
  refine ⟨h.account, h.log.raiseIrreversible hblock, ?_, ?_, ?_, ?_, ?_⟩
  all_goals dsimp only
  · rw [raiseIrreversible_blocks]
    exact h.linked
  · rw [raiseIrreversible_blocks]
    exact h.first
  · exact h.final.imp_right fun hlt => Nat.lt_of_lt_of_le hlt hle
  · rw [raiseIrreversible_blocks]
    exact h.decodes
  · rw [raiseIrreversible_blocks, ← replayTable_commit hle]
    exact h.table.commit _

/-- **Trimming** moves blocks from the log to the trimmed part of the chain. -/
theorem trimBlocks (h : ChainInv starterAccount trimmed m) :
    ChainInv starterAccount (trimmed ++ trimmedBy m.blockLog) m.trimBlocks := by
  have hchain : trimmed ++ trimmedBy m.blockLog ++ m.blockLog.trim.blocks =
      trimmed ++ m.blockLog.blocks := by
    rw [List.append_assoc, trimmedBy, BlockLog.trim, List.take_append_drop]
  refine ⟨h.account, h.log.trim, ?_, ?_, ?_, ?_, ?_⟩
  · rw [MicroChain.trimBlocks, hchain]
    exact h.linked
  · rw [MicroChain.trimBlocks, hchain]
    exact h.first
  · show _ ∨ _ < m.blockLog.irreversible.toNat
    rcases h.log.irreversible_mem with h0 | ⟨block, hblock, hnum⟩
    · refine .inl ?_
      rw [h.trimmed_eq_nil h0, List.nil_append, trimmedBy, h0, lowerBoundByNum_zero,
        List.take_zero]
    · obtain ⟨i, hi, rfl⟩ := List.mem_iff_getElem.mp hblock
      refine .inr ?_
      rw [trimmedBy, ← hnum, lowerBoundByNum_getElem h.log.linked hi, h.num hi,
        List.length_append, List.length_take]
      omega
  · rw [MicroChain.trimBlocks, hchain]
    exact h.decodes
  · rw [MicroChain.trimBlocks, hchain]
    exact h.table

/-! ### Adding a block -/

/-- `set_revision` on a table without sessions. -/
theorem setRevision_ok {u : GreetingIndex} {t : SnapshotTable Greeting} (h : TableRefines u t)
    (hcopies : t.copies = []) (revision : Nat) (hle : t.revision ≤ revision)
    (hmax : revision ≤ UndoIndex.int64Max) :
    ∃ u', u.setRevision revision = .ok u' ∧ TableRefines u' { t with revision } := by
  have hlen := h.length_eq
  rw [hcopies, List.length_nil] at hlen
  have hrev : ¬ ((revision : Int) < u.revision) := by
    rw [h.revision]
    omega
  have hok : u.setRevision revision = .ok { u with revision } := by
    rw [UndoIndex.setRevision, if_neg (not_not.mpr hlen), if_neg (by omega), if_neg hrev]
  exact ⟨_, hok, (h.setRevision hok).2⟩

/-- The log of a chain with one more block, and a table that follows. -/
theorem append (h : ChainInv starterAccount trimmed m) {block : BlockWithId} {log : BlockLog}
    (db : Database) (hlog : log.WellFormed)
    (hblocks : log.blocks = m.blockLog.blocks ++ [block])
    (hone : m.blockLog.blocks = [] → block.num = 1)
    (hirr : m.blockLog.irreversible ≤ log.irreversible)
    (hdecodes : Decodes starterAccount block.eosioBlock)
    (htable : TableRefines db.greetings (replayTable starterAccount
      (trimmed ++ m.blockLog.blocks ++ [block]) log.irreversible.toNat)) :
    ChainInv starterAccount trimmed { m with blockLog := log, db } := by
  have hnil : m.blockLog.blocks = [] → trimmed = [] := fun hnil =>
    h.trimmed_eq_nil (h.log.irreversible_mem.resolve_right (by simp [hnil]))
  refine ⟨h.account, hlog, ?_, ?_, ?_, ?_, ?_⟩
  all_goals dsimp only
  · rw [hblocks, ← List.append_assoc]
    refine h.linked.append (.singleton _) fun a ha b hb => ?_
    have hlinked := hlog.linked
    rw [hblocks] at hlinked
    refine (List.isChain_append.mp hlinked).2.2 a ?_ b hb
    -- an empty log has nothing trimmed, so the chain is empty too
    by_cases hblk : m.blockLog.blocks = []
    · simp [hblk, hnil hblk] at ha
    · rwa [List.getLast?_append_of_ne_nil _ hblk] at ha
  · rw [hblocks, ← List.append_assoc]
    intro b hb
    by_cases hblk : m.blockLog.blocks = []
    · obtain rfl : block = b := by simpa [hblk, hnil hblk] using hb
      exact hone hblk
    · rw [List.head?_append_of_ne_nil _ (by simp [hblk])] at hb
      exact h.first b hb
  · exact h.final.imp_right fun hlt => Nat.lt_of_lt_of_le hlt (UInt32.le_iff_toNat_le.mp hirr)
  · rw [hblocks, ← List.append_assoc]
    exact List.forall_mem_append.mpr ⟨h.decodes, by simpa using hdecodes⟩
  · rw [hblocks, ← List.append_assoc]
    exact htable

/-- **Adding a block**: it is refused and nothing changes, or it is appended and its
actions decode, or `filter_block` fails on it. -/
theorem addBlockWithId (h : ChainInv starterAccount trimmed m) (bi : BlockWithId)
    (eosioIrreversible : UInt32) :
    let r := m.addBlockWithId bi eosioIrreversible
    (m.blockLog.addBlock bi).1 ≠ .appended ∧ r = (.ok false, m) ∨
    (m.blockLog.addBlock bi).1 = .appended ∧ Decodes starterAccount bi.eosioBlock ∧
      r.1 = .ok true ∧ ChainInv starterAccount trimmed r.2 ∨
    (m.blockLog.addBlock bi).1 = .appended ∧ ¬ Decodes starterAccount bi.eosioBlock ∧
      ∃ e, r.1 = .error (.filterBlock e) := by
  intro r
  -- refused, or appended after the blocks before position `it`
  rcases addBlock_cases h.log bi with ⟨st, hst, heq⟩ | ⟨it, -, hle, heq, hone, hprev, hfork, -⟩
  · refine .inl ⟨by rwa [heq], ?_⟩
    show m.addBlockWithId bi eosioIrreversible = _
    cases st with
    | appended => exact absurd rfl hst
    | duplicate => simp only [MicroChain.addBlockWithId, heq]
    | unlinkable => simp only [MicroChain.addBlockWithId, heq]
  right
  have hst : (m.blockLog.addBlock bi).1 = .appended := by rw [heq]
  have hforked := h.fork hle hfork
  rw [MicroChain.forkedNBlocks_eq] at hforked
  obtain ⟨kept, hdefkept⟩ : ∃ kept, m.blockLog.blocks.take it = kept := ⟨_, rfl⟩
  rw [hdefkept] at heq hforked
  obtain ⟨log', hdef⟩ : ∃ log', MicroChain.addedLog
    { m.blockLog with blocks := kept ++ [bi] } eosioIrreversible = log' := ⟨_, rfl⟩
  have hkept : kept = [] → it = 0 := fun hnil => by
    rcases List.take_eq_nil_iff.mp (hdefkept.trans hnil) with h0 | h0
    · exact h0
    · rw [h0] at hle
      exact Nat.le_zero.mp hle
  have hlog' : log'.WellFormed := by
    have hlog := h.log.addBlock bi
    rw [heq] at hlog
    rw [← hdef]
    exact hlog.raiseIrreversible fun _ hx => mem_of_before hx
  have hblocks : log'.blocks = kept ++ [bi] := by
    rw [← hdef]
    exact raiseIrreversible_blocks _ _
  have hirr : m.blockLog.irreversible ≤ log'.irreversible := by
    rw [← hdef]
    exact irreversible_le_raiseIrreversible { m.blockLog with blocks := kept ++ [bi] } _
  obtain ⟨chain, hchain⟩ : ∃ chain, trimmed ++ kept = chain := ⟨_, rfl⟩
  -- its number is the next one of the whole chain, trimmed blocks included
  have hnum : bi.num.toNat = chain.length + 1 := by
    rw [← hchain, ← hdefkept]
    cases it with
    | zero =>
      have h0 : m.blockLog.irreversible = 0 :=
        hforked.log.irreversible_mem.resolve_right (by simp [← hdefkept])
      simp [h.trimmed_eq_nil h0, hone rfl]
    | succ i =>
      have hi : i < m.blockLog.blocks.length := hle
      have hlinked := hprev _ (by rw [before_succ, List.getElem?_eq_getElem hi])
      rw [hlinked.1, h.num hi, List.length_append, List.length_take]
      omega
  have htable : TableRefines
      (m.committed (m.blockLog.blocks.length - it) log'.irreversible)
      (replayTable starterAccount chain log'.irreversible.toNat) := by
    rw [← replayTable_commit (UInt32.le_iff_toNat_le.mp hirr), ← hchain]
    exact hforked.table.commit _
  have happend : ∀ u, Decodes starterAccount bi.eosioBlock →
      TableRefines u (replayTable starterAccount (chain ++ [bi]) log'.irreversible.toNat) →
      ChainInv starterAccount trimmed { m with starterAccount, blockLog := log', db := ⟨u⟩ } := by
    intro u hdecodes hu
    have hinv := hforked.append ⟨u⟩ hlog' hblocks (fun hnil => hone (hkept hnil)) hirr hdecodes
      (hchain ▸ hu)
    rwa [h.account] at hinv
  -- a reversible block runs in a session of its own, a final one without
  by_cases hneed : log'.irreversible < bi.num
  · have hexec := MicroChain.addBlockWithId_of_reversible heq hdef hneed
    rw [h.account] at hexec
    by_cases hdecodes : Decodes starterAccount bi.eosioBlock
    · obtain ⟨u, hrun, hu⟩ := filterBlock_ok htable.addSession hdecodes
      simp only [hrun] at hexec
      have hle' : log'.irreversible.toNat ≤ chain.length := by
        rw [UInt32.lt_iff_toNat_lt] at hneed
        omega
      have hr : r = _ := hexec
      rw [hr]
      refine .inl ⟨hst, hdecodes, rfl, ?_⟩
      exact happend u hdecodes (replayTable_append_of_le bi hle' ▸ hu)
    · obtain ⟨e, u, s, hrun, -⟩ := filterBlock_error htable.addSession hdecodes
      simp only [hrun] at hexec
      have hr : r = _ := hexec
      rw [hr]
      exact .inr ⟨hst, hdecodes, e, rfl⟩
  · have hexec := MicroChain.addBlockWithId_of_final heq hdef hneed
    rw [h.account] at hexec
    by_cases hdecodes : Decodes starterAccount bi.eosioBlock
    · obtain ⟨u, hrun, hu⟩ := filterBlock_ok htable hdecodes
      have hlt : chain.length < log'.irreversible.toNat := by
        rw [UInt32.lt_iff_toNat_lt] at hneed
        omega
      -- no session is left, so set_revision does not refuse
      have hcopies : (replayTable starterAccount chain log'.irreversible.toNat).copies = [] := by
        rw [replayTable, reversible_eq_nil (Nat.le_of_lt hlt), List.map_nil]
      have hbound := bi.num.toNat_lt
      obtain ⟨u', hset, hu'⟩ := setRevision_ok hu hcopies bi.num.toNat
        (show (chain.length : Int) ≤ bi.num.toNat by omega) (by rw [UndoIndex.int64Max]; omega)
      simp only [hrun, hset] at hexec
      have hr : r = _ := hexec
      rw [hr]
      refine .inl ⟨hst, hdecodes, rfl, ?_⟩
      rw [hnum] at hu'
      exact happend u' hdecodes (replayTable_append_of_lt bi hlt ▸ hu')
    · obtain ⟨e, u, s, hrun, -⟩ := filterBlock_error htable hdecodes
      simp only [hrun] at hexec
      have hr : r = _ := hexec
      rw [hr]
      exact .inr ⟨hst, hdecodes, e, rfl⟩

/-- The table from which a push goes from `m` to `m'`: the forked blocks undone. -/
def tableBefore (m m' : MicroChain) : GreetingIndex :=
  UndoIndex.undo^[m.blockLog.blocks.length + 1 - m'.blockLog.blocks.length] m.db.greetings

/-- A block that was appended: the table before it and after it. -/
theorem addBlockWithId_ok (h : ChainInv starterAccount trimmed m) {bi : BlockWithId}
    {eosioIrreversible : UInt32} {m' : MicroChain}
    (hexec : m.addBlockWithId bi eosioIrreversible = (.ok true, m')) :
    ∃ t t', TableRefines (tableBefore m m') t ∧ TableRefines m'.db.greetings t' ∧
      t'.current = filterSnapshot starterAccount t.current bi.eosioBlock := by
  rcases h.addBlockWithId bi eosioIrreversible with ⟨-, heq⟩ | ⟨hst, -, -, hinv⟩ | ⟨-, -, e, herror⟩
  · rw [hexec] at heq
    cases heq
  · rcases addBlock_cases h.log bi with ⟨st, hne, heq⟩ | ⟨it, -, hle, heq, -, -, hfork, -⟩
    · rw [heq] at hst
      exact absurd hst hne
    have hlog := MicroChain.addBlockWithId_blockLog m bi eosioIrreversible
    rw [hexec] at hlog hinv
    rw [BlockLog.addBlockIrreversible, heq] at hlog
    have hblocks : m'.blockLog.blocks = m.blockLog.blocks.take it ++ [bi] := by
      rw [hlog]
      exact raiseIrreversible_blocks _ _
    have hcount : m.blockLog.blocks.length + 1 - m'.blockLog.blocks.length =
        m.blockLog.blocks.length - it := by
      rw [hblocks, List.length_append, List.length_take, List.length_singleton]
      omega
    have hforked := h.fork hle hfork
    rw [MicroChain.forkedNBlocks_eq] at hforked
    refine ⟨_, _, hcount ▸ hforked.table, hinv.table, ?_⟩
    show replaySnapshot starterAccount (trimmed ++ m'.blockLog.blocks) = _
    rw [hblocks, ← List.append_assoc, replaySnapshot_append]
    rfl
  · rw [hexec] at herror
    cases herror

/-- The result buffer is not part of the invariant. -/
theorem setResult (h : ChainInv starterAccount trimmed m) (result : ResultBuffer) :
    ChainInv starterAccount trimmed { m with result } :=
  ⟨h.account, h.log, h.linked, h.first, h.final, h.decodes, h.table⟩

/-- What a call that adds a block leaves: a failure of `filter_block`, or the
invariant. -/
def Kept (starterAccount : Name) (trimmed : List BlockWithId)
    (r : Except Failure Bool × MicroChain) : Prop :=
  (∃ e, r.1 = .error (.filterBlock e)) ∨
    (∀ e, r.1 ≠ .error (.setRevision e)) ∧ ChainInv starterAccount trimmed r.2

theorem kept_addBlockWithId (h : ChainInv starterAccount trimmed m) (bi : BlockWithId)
    (eosioIrreversible : UInt32) :
    Kept starterAccount trimmed (m.addBlockWithId bi eosioIrreversible) := by
  rcases h.addBlockWithId bi eosioIrreversible with ⟨-, heq⟩ | ⟨-, -, hok, hinv⟩ | ⟨-, -, herror⟩
  · rw [heq]
    exact .inr ⟨fun e => by simp, h⟩
  · exact .inr ⟨fun e => by simp [hok], hinv⟩
  · exact .inl herror

/-- What a call that returned leaves. -/
theorem Kept.inv {r : Except Failure Bool × MicroChain} (h : Kept starterAccount trimmed r)
    (hok : r.1.toOption.isSome) : ChainInv starterAccount trimmed r.2 := by
  rcases h with ⟨e, he⟩ | ⟨-, hinv⟩
  · rw [he] at hok
    cases hok
  · exact hinv

theorem kept_addEosioBlock (h : ChainInv starterAccount trimmed m)
    (sha256 : Bytes → Checksum256) (eosioBlock : EosioBlock) (eosioIrreversible : UInt32) :
    Kept starterAccount trimmed (m.addEosioBlock sha256 eosioBlock eosioIrreversible) :=
  (h.setResult _).kept_addBlockWithId _ _

theorem kept_addShipResult (h : ChainInv starterAccount trimmed m)
    (sha256 : Bytes → Checksum256) (r : ShipResult) :
    Kept starterAccount trimmed (m.addShipResult sha256 r) := by
  cases r with
  | getStatusResult => exact .inr ⟨nofun, h⟩
  | getBlocksResult r =>
    simp only [MicroChain.addShipResult]
    split
    · exact .inr ⟨nofun, h⟩
    · split
      · exact .inr ⟨nofun, h⟩
      · exact h.kept_addEosioBlock sha256 _ _

theorem undoBlockNum (h : ChainInv starterAccount trimmed m) (blockNum : UInt32) :
    ChainInv starterAccount trimmed (m.undoBlockNum blockNum) ∧
      Undoable m.db.greetings (m.blockLog.undo blockNum).1 := by
  rw [MicroChain.undoBlockNum]
  rcases undo_cases m.blockLog blockNum with heq | ⟨it, hi, hnum, hirr, heq⟩
  · simp only [heq]
    exact ⟨h, fun k hk => absurd hk (Nat.not_lt_zero k)⟩
  · have hfork := lt_num_of_le h.log.linked hi (hnum ▸ hirr)
    simp only [heq]
    exact ⟨h.fork (Nat.le_of_lt hi) hfork, h.undoable (Nat.le_of_lt hi) hfork⟩

theorem undoEosioNum (h : ChainInv starterAccount trimmed m) (eosioNum : UInt32) :
    ChainInv starterAccount trimmed (m.undoEosioNum eosioNum) ∧
      Undoable m.db.greetings (m.blockLog.undoEosioNum eosioNum).1 := by
  rw [MicroChain.undoEosioNum, BlockLog.undoEosioNum]
  cases m.blockLog.blockByEosioNum eosioNum with
  | none => exact ⟨h, fun k hk => absurd hk (Nat.not_lt_zero k)⟩
  | some b => exact h.undoBlockNum b.num

theorem undoable_addBlock (h : ChainInv starterAccount trimmed m) (bi : BlockWithId) :
    Undoable m.db.greetings (m.blockLog.addBlock bi).2.1 := by
  rcases addBlock_cases h.log bi with ⟨st, -, heq⟩ | ⟨it, -, hle, heq, -, -, hfork, -⟩
  · simp only [heq]
    exact fun k hk => absurd hk (Nat.not_lt_zero k)
  · simp only [heq]
    exact h.undoable hle hfork

end ChainInv

/-! ## Runs -/

/-- A chain in a run, with the blocks that `trimBlocks` has removed. -/
structure ChainRun where
  chain : MicroChain
  trimmed : List BlockWithId := []

namespace ChainRun

variable (sha256 : Bytes → Checksum256)

/-- An instance after `initialize`. -/
def start (starterAccount : Name) : ChainRun := { chain := { starterAccount } }

/-- The current chain. -/
def blocks (r : ChainRun) : List BlockWithId := r.trimmed ++ r.chain.blockLog.blocks

/-- One call. -/
def step (r : ChainRun) (call : Call) : Except Failure Bool × ChainRun :=
  let (result, chain) := call.exec sha256 r.chain
  match call with
  | .trimBlocks => (result, ⟨chain, r.trimmed ++ trimmedBy r.chain.blockLog⟩)
  | _ => (result, ⟨chain, r.trimmed⟩)

/-- A run of calls. -/
def run (r : ChainRun) (calls : List Call) : ChainRun :=
  calls.foldl (fun r call => (r.step sha256 call).2) r

/-- `filter_block` aborts. -/
def filterAborts : Except Failure Bool → Bool
  | .error (.filterBlock _) => true
  | _ => false

/-- No call of the run aborts in `filter_block`. -/
def Unaborted (r : ChainRun) : List Call → Prop
  | [] => True
  | call :: calls =>
    filterAborts (r.step sha256 call).1 = false ∧ Unaborted (r.step sha256 call).2 calls

/-- The invariant of a run. -/
def Inv (starterAccount : Name) (r : ChainRun) : Prop :=
  ChainInv starterAccount r.trimmed r.chain

variable {sha256} {starterAccount : Name} {r : ChainRun}

theorem inv_start (starterAccount : Name) : Inv starterAccount (start starterAccount) := by
  refine ⟨rfl, wellFormed_empty, .nil, by simp [start], .inl rfl, by simp [start], ?_⟩
  exact Refines.empty [orderedByPk]

/-- One call, whatever its arguments. -/
theorem step_kept (sha256 : Bytes → Checksum256) (h : Inv starterAccount r) (call : Call) :
    (∃ e, (r.step sha256 call).1 = .error (.filterBlock e)) ∨
      (∀ e, (r.step sha256 call).1 ≠ .error (.setRevision e)) ∧
        Inv starterAccount (r.step sha256 call).2 := by
  have hinv : ChainInv starterAccount r.trimmed r.chain := h
  cases call with
  | addEosioBlockJson json irr =>
    cases json with
    | error e => exact .inr ⟨nofun, hinv⟩
    | ok b => exact hinv.kept_addEosioBlock sha256 b irr
  | addBlock data irr =>
    cases data with
    | error e => exact .inr ⟨nofun, hinv⟩
    | ok b => exact hinv.kept_addBlockWithId b irr
  | pushShipMessage data =>
    cases data with
    | error e => exact .inr ⟨nofun, hinv⟩
    | ok b => exact hinv.kept_addShipResult sha256 b
  | setIrreversible n =>
    exact .inr ⟨nofun, hinv.raise fun _ hb => mem_of_before hb⟩
  | trimBlocks => exact .inr ⟨nofun, hinv.trimBlocks⟩
  | undoBlockNum n => exact .inr ⟨nofun, (hinv.undoBlockNum n).1⟩
  | undoEosioNum n => exact .inr ⟨nofun, (hinv.undoEosioNum n).1⟩

/-- **The invariant over whole runs.** -/
theorem run_inv {calls : List Call} (h : Inv starterAccount r) (hrun : r.Unaborted sha256 calls) :
    Inv starterAccount (r.run sha256 calls) := by
  induction calls generalizing r with
  | nil => exact h
  | cons call calls ih =>
    obtain ⟨hcall, hrun⟩ := hrun
    rcases step_kept sha256 h call with ⟨e, he⟩ | ⟨-, hinv⟩
    · rw [he] at hcall
      cases hcall
    · exact ih hinv hrun

/-! ### The log of a run -/

/-- A call does to the log what the log operations say, or nothing. -/
theorem exec_blockLog (sha256 : Bytes → Checksum256) (m : MicroChain) (call : Call) :
    ∃ ops, (call.exec sha256 m).2.blockLog = runLog m.blockLog ops := by
  have hadd : ∀ (m' : MicroChain) bi irr, m'.blockLog = m.blockLog →
      ∃ ops, (m'.addBlockWithId bi irr).2.blockLog = runLog m.blockLog ops := by
    intro m' bi irr hlog
    exact ⟨[.addBlock bi irr], by rw [MicroChain.addBlockWithId_blockLog, hlog]; rfl⟩
  cases call with
  | addEosioBlockJson json irr =>
    cases json with
    | error e => exact ⟨[], rfl⟩
    | ok b => exact hadd _ _ _ rfl
  | addBlock data irr =>
    cases data with
    | error e => exact ⟨[], rfl⟩
    | ok b => exact hadd m b irr rfl
  | pushShipMessage data =>
    match data with
    | .error e => exact ⟨[], rfl⟩
    | .ok .getStatusResult => exact ⟨[], rfl⟩
    | .ok (.getBlocksResult r) =>
      simp only [Call.exec, MicroChain.decoding, MicroChain.addShipResult]
      split
      · exact ⟨[], rfl⟩
      · split
        · exact ⟨[], rfl⟩
        · exact hadd _ _ _ rfl
  | setIrreversible n => exact ⟨[.setIrreversible n], rfl⟩
  | trimBlocks => exact ⟨[.trimBlocks], rfl⟩
  | undoBlockNum n => exact ⟨[.undoBlockNum n], m.undoBlockNum_blockLog n⟩
  | undoEosioNum n => exact ⟨[.undoEosioNum n], m.undoEosioNum_blockLog n⟩

/-- **The log of a run** is a run of log operations, so that what holds of all of
those (`runLog_wellFormed`, `runLog_final`) holds of it. -/
theorem run_blockLog (calls : List Call) :
    ∃ ops, (r.run sha256 calls).chain.blockLog = runLog r.chain.blockLog ops := by
  induction calls generalizing r with
  | nil => exact ⟨[], rfl⟩
  | cons call calls ih =>
    obtain ⟨ops, hops⟩ := exec_blockLog sha256 r.chain call
    obtain ⟨ops', hops'⟩ := @ih (r.step sha256 call).2
    have hstep : (r.step sha256 call).2.chain = (call.exec sha256 r.chain).2 := by
      cases call <;> rfl
    refine ⟨ops ++ ops', hops'.trans ?_⟩
    rw [hstep, hops, runLog, runLog, runLog, List.foldl_append]

/-! ### What a run serves -/

/-- The replay of a chain whose blocks decode. -/
theorem replay_ok {u : GreetingIndex} {t : SnapshotTable Greeting} (h : TableRefines u t)
    {chain : List BlockWithId}
    (hdecodes : ∀ block ∈ chain, Decodes starterAccount block.eosioBlock) :
    ∃ u', replay starterAccount u chain = (.ok (), u') ∧
      TableRefines u'
        { t with
          current := chain.foldl (fun s b => filterSnapshot starterAccount s b.eosioBlock)
            t.current } := by
  induction chain generalizing u t with
  | nil => exact ⟨u, rfl, h⟩
  | cons block chain ih =>
    obtain ⟨hblock, hdecodes⟩ := List.forall_mem_cons.mp hdecodes
    obtain ⟨u₁, hrun, h₁⟩ := filterBlock_ok h hblock
    obtain ⟨u₂, hrest, h₂⟩ := ih h₁ hdecodes
    exact ⟨u₂, by rw [replay, hrun]; exact hrest, h₂⟩

/-- The rows are those of a replay of the chain. -/
theorem rows_replay {m : MicroChain} {trimmed : List BlockWithId}
    (h : ChainInv starterAccount trimmed m) : ∃ table,
    replay starterAccount GreetingIndex.new (trimmed ++ m.blockLog.blocks) = (.ok (), table) ∧
      m.db.greetings.rows = table.rows ∧ m.db.greetings.nextId = table.nextId := by
  obtain ⟨table, hreplay, htable⟩ := replay_ok (Refines.empty [orderedByPk]) h.decodes
  have hsnap : m.db.greetings.content.snapshot = table.content.snapshot :=
    h.table.current.trans htable.current.symm
  refine ⟨table, hreplay, ?_, congrArg Snapshot.nextId hsnap⟩
  rw [h.table.store.rows_eq, htable.store.rows_eq, hsnap]

/-- A block in which the account `bob` says `A`. -/
def hiBlock (starterAccount : Name) (num : UInt32) : EosioBlock where
  num
  transactions := [{
    actions := [{
      firstReceiver := starterAccount
      receiver := starterAccount
      name := Name.ofString "hi"
      hexData := nameToBin (Name.ofString "bob") ++ [1, 65] }] }]

/-- Two blocks, the second undone, and a third that makes the first final. -/
def forkCalls (starterAccount : Name) : List Call :=
  [.addEosioBlockJson (.ok (hiBlock starterAccount 5)) 0,
    .addEosioBlockJson (.ok (hiBlock starterAccount 6)) 0, .undoEosioNum 6,
    .addEosioBlockJson (.ok (hiBlock starterAccount 7)) 5, .trimBlocks]

/-- **The database is a replay of the chain**: after every run without an abort in
`filter_block`, the chain is numbered from 1 to the head, and the rows with their
ids and the next id are those of running `filter_block` on it from an empty table. -/
theorem run_replay (sha256 : Bytes → Checksum256) (starterAccount : Name) (calls : List Call)
    (hrun : (start starterAccount).Unaborted sha256 calls) :
    let r := (start starterAccount).run sha256 calls
    r.blocks.length = headNum r.chain.blockLog ∧
      (∀ i (hi : i < r.blocks.length), (r.blocks[i]).num.toNat = i + 1) ∧
      ∃ table, replay starterAccount GreetingIndex.new r.blocks = (.ok (), table) ∧
        r.chain.db.greetings.rows = table.rows ∧
        r.chain.db.greetings.nextId = table.nextId := by
  intro r
  have h : ChainInv starterAccount r.trimmed r.chain := run_inv (inv_start starterAccount) hrun
  obtain ⟨table, hreplay, htable⟩ := replay_ok (Refines.empty [orderedByPk]) h.decodes
  have hsnap : r.chain.db.greetings.content.snapshot = table.content.snapshot :=
    h.table.current.trans htable.current.symm
  refine ⟨h.headNum_eq.symm, fun i hi => num_chain h.linked h.first hi, table, hreplay, ?_, ?_⟩
  · rw [h.table.store.rows_eq, htable.store.rows_eq, hsnap]
  · exact congrArg Snapshot.nextId hsnap

theorem run_replay_example :
    let r := (start (Name.ofString "starter")).run (fun _ => {})
      (forkCalls (Name.ofString "starter"))
    r.blocks.length = headNum r.chain.blockLog ∧
      ∃ table, replay (Name.ofString "starter") GreetingIndex.new r.blocks = (.ok (), table) ∧
        r.chain.db.greetings.rows = table.rows := by
  obtain ⟨hlen, -, table, hreplay, hrows, -⟩ := run_replay (fun _ => {}) (Name.ofString "starter")
    (forkCalls (Name.ofString "starter")) ⟨rfl, rfl, rfl, rfl, rfl, trivial⟩
  exact ⟨hlen, table, hreplay, hrows⟩

/-- **Revision and depth**: after every run without an abort in `filter_block`, the
revision of the table is the number of the head, its undo stack holds one state for
each block above `irreversible`, every undo of a fork finds one, and no call can fail
in `set_revision`. -/
theorem run_depth (sha256 : Bytes → Checksum256) (starterAccount : Name) (calls : List Call)
    (hrun : (start starterAccount).Unaborted sha256 calls) :
    let m := ((start starterAccount).run sha256 calls).chain
    m.db.greetings.revision = headNum m.blockLog ∧
      m.db.greetings.undoStack.length + m.blockLog.irreversible.toNat = headNum m.blockLog ∧
      (∀ bi, Undoable m.db.greetings (m.blockLog.addBlock bi).2.1) ∧
      (∀ n, Undoable m.db.greetings (m.blockLog.undo n).1) ∧
      (∀ n, Undoable m.db.greetings (m.blockLog.undoEosioNum n).1) ∧
      ∀ (call : Call) (e : String), (call.exec sha256 m).1 ≠ .error (.setRevision e) := by
  intro m
  have h := run_inv (inv_start starterAccount) hrun
  have hinv : ChainInv starterAccount _ m := h
  refine ⟨hinv.revision_eq, ?_, hinv.undoable_addBlock, fun n => (hinv.undoBlockNum n).2,
    fun n => (hinv.undoEosioNum n).2, fun call e he => ?_⟩
  · rw [hinv.depth_eq]
    have hle := hinv.irreversible_le
    rw [hinv.headNum_eq, List.length_append]
    omega
  · have hstep : ((run sha256 (start starterAccount) calls).step sha256 call).1 =
        (call.exec sha256 m).1 := by cases call <;> rfl
    rcases step_kept sha256 h call with ⟨e', he'⟩ | ⟨hne, -⟩
    · rw [hstep, he] at he'
      cases he'
    · exact hne e (hstep.trans he)

theorem run_depth_example :
    let m := ((start (Name.ofString "starter")).run (fun _ => {})
      (forkCalls (Name.ofString "starter"))).chain
    m.db.greetings.revision = headNum m.blockLog :=
  (run_depth (fun _ => {}) (Name.ofString "starter") (forkCalls (Name.ofString "starter"))
    ⟨rfl, rfl, rfl, rfl, rfl, trivial⟩).1

end ChainRun

end Microchain.Starter
