import Microchain.Feed.Redelivery
import Microchain.Subchain.Decode

/-!
# The head id determines the state

The id of a block is a hash of the rest of it, which has the id of the block before. An
instance gets its blocks from eosio blocks, or from the bytes of another instance, and
`addBlock` does not look at the id in them; but instances that take bytes from one
another only (`Reached`) have hashes for ids all the same. So two chains with one head
are one chain, unless blocks of theirs collide.

- `Reached.inv`: what all these instances have in common.
- `eq_of_last_id`: two chains with one last id.
- `head_determines`: **the head id determines the state**.
-/

namespace Microchain.Feed

open Eosio Subchain Starter Chainbase BlockLog Lib

/-! ## Instances that feed one another -/

/-- The bytes of a block that an instance hands out: those that `getBlock` finds in its
log, or those that it leaves in the result buffer when an eosio block is pushed. -/
inductive Produces (sha256 : Bytes → Checksum256) (r : ChainRun) : BlockWithId → Prop
  | getBlock {b : BlockWithId} (hb : b ∈ r.chain.blockLog.blocks) : Produces sha256 r b
  | pushed {eosioBlock : EosioBlock} (hfits : eosioBlock.Fits) : Produces sha256 r
    (MicroChain.withId sha256 (MicroChain.nextBlock r.chain.blockLog eosioBlock))

/-- The call of `addBlock` with some bytes. -/
def addBlockBytes (data : Bytes) (eosioIrreversible : UInt32) : Call :=
  .addBlock ((blockWithIdFromBin data).map (·.1)) eosioIrreversible

/-- The instances that any run reaches of feeds, undos, irreversibility updates, trims,
and blocks of other such instances. No call aborts in `filter_block`. -/
inductive Reached (sha256 : Bytes → Checksum256) (starterAccount : Name) : ChainRun → Prop
  | start : Reached sha256 starterAccount (ChainRun.start starterAccount)
  | feed {r : ChainRun} {call : Call} (h : Reached sha256 starterAccount r) (hfeed : IsFeed call)
    (hfits : ∀ eosioBlock, Feeds eosioBlock call → eosioBlock.Fits)
    (hresult : ChainRun.filterAborts (r.step sha256 call).1 = false) :
    Reached sha256 starterAccount (r.step sha256 call).2
  | addBlock {r other : ChainRun} {b : BlockWithId} {eosioIrreversible : UInt32}
    (h : Reached sha256 starterAccount r) (hother : Reached sha256 starterAccount other)
    (hb : Produces sha256 other b)
    (hresult : ChainRun.filterAborts
      (r.step sha256 (addBlockBytes (blockWithIdToBin b) eosioIrreversible)).1 = false) :
    Reached sha256 starterAccount
      (r.step sha256 (addBlockBytes (blockWithIdToBin b) eosioIrreversible)).2

/-- A block with its hash, and with containers of a 32-bit size. -/
structure Sealed (sha256 : Bytes → Checksum256) (b : BlockWithId) : Prop where
  id : MicroChain.withId sha256 b.toBlock = b
  fits : b.eosioBlock.Fits

/-- What the instances have in common. -/
structure ReachedInv (sha256 : Bytes → Checksum256) (starterAccount : Name) (r : ChainRun) :
    Prop where
  chain : ChainRun.Inv starterAccount r
  isSealed : ∀ b ∈ r.blocks, Sealed sha256 b

section Reached

variable {sha256 : Bytes → Checksum256} {starterAccount : Name} {r : ChainRun}

theorem mem_addBlock {log : BlockLog} {bi b : BlockWithId} (h : b ∈ (log.addBlock bi).2.2.blocks) :
    b ∈ log.blocks ∨ b = bi := by
  unfold addBlock at h
  dsimp only at h
  split_ifs at h
  · exact .inl h
  · exact .inl h
  · exact .inl h
  · exact .inl h
  · rcases List.mem_append.mp h with hold | hnew
    · exact .inl (List.mem_of_mem_take hold)
    · exact .inr (List.mem_singleton.mp hnew)

/-- The block that is built from an eosio block. -/
theorem sealed_nextBlock (log : BlockLog) {eosioBlock : EosioBlock} (hfits : eosioBlock.Fits) :
    Sealed sha256 (MicroChain.withId sha256 (MicroChain.nextBlock log eosioBlock)) := by
  constructor
  · rfl
  · show (MicroChain.nextBlock log eosioBlock).eosioBlock.Fits
    rwa [nextBlock_eosioBlock]

theorem ReachedInv.produces (h : ReachedInv sha256 starterAccount r) {b : BlockWithId}
    (hb : Produces sha256 r b) : Sealed sha256 b := by
  cases hb with
  | getBlock hb => exact h.isSealed b (List.mem_append_right _ hb)
  | pushed hfits => exact sealed_nextBlock _ hfits

/-- The invariant after a call that does not abort in `filter_block`. -/
theorem inv_of_step (h : ChainRun.Inv starterAccount r) {call : Call}
    (hresult : ChainRun.filterAborts (r.step sha256 call).1 = false) :
    ChainRun.Inv starterAccount (r.step sha256 call).2 := by
  rcases ChainRun.step_kept sha256 h call with ⟨e, he⟩ | ⟨-, hinv⟩
  · rw [he] at hresult
    cases hresult
  · exact hinv

/-- A feed. -/
theorem ReachedInv.feed (h : ReachedInv sha256 starterAccount r) {call : Call}
    (hfeed : IsFeed call) (hfits : ∀ eosioBlock, Feeds eosioBlock call → eosioBlock.Fits)
    (hresult : ChainRun.filterAborts (r.step sha256 call).1 = false) :
    ReachedInv sha256 starterAccount (r.step sha256 call).2 := by
  refine ⟨inv_of_step h.chain hresult, ?_⟩
  rcases step_cases sha256 r hfeed with ⟨htrimmed, hfed⟩ | ⟨htrimmed, hlog⟩
  · rw [ChainRun.blocks, htrimmed]
    generalize (r.step sha256 call).2.chain.blockLog = log at hfed ⊢
    -- a call that only drops blocks leaves sealed ones
    have hold : ∀ {l}, l.Sublist r.chain.blockLog.blocks →
        ∀ b ∈ r.trimmed ++ l, Sealed sha256 b := by
      intro l hl b hb
      exact h.isSealed b ((List.Sublist.append_left hl _).subset hb)
    cases hfed with
    | same => exact h.isSealed
    | @addEosioBlock eosioBlock hfeeds irr =>
      rw [addBlockIrreversible_blocks]
      intro b hb
      rcases List.mem_append.mp hb with hb | hb
      · exact h.isSealed b (List.mem_append_left _ hb)
      rcases mem_addBlock hb with hb | rfl
      · exact h.isSealed b (List.mem_append_right _ hb)
      · exact sealed_nextBlock _ (hfits eosioBlock hfeeds)
    | setIrreversible n =>
      rw [setIrreversible, raiseIrreversible_blocks]
      exact h.isSealed
    | undo n => exact hold (undo_sublist _ n)
    | undoEosioNum n => exact hold (undoEosioNum_sublist _ n)
  · rw [ChainRun.blocks, htrimmed, hlog, List.append_assoc, trimmedBy_append_trim]
    exact h.isSealed

/-- The bytes of a block of another instance. -/
theorem ReachedInv.addBlock (h : ReachedInv sha256 starterAccount r) {b : BlockWithId}
    (hb : Sealed sha256 b) {eosioIrreversible : UInt32}
    (hresult : ChainRun.filterAborts
      (r.step sha256 (addBlockBytes (blockWithIdToBin b) eosioIrreversible)).1 = false) :
    ReachedInv sha256 starterAccount
      (r.step sha256 (addBlockBytes (blockWithIdToBin b) eosioIrreversible)).2 := by
  refine ⟨inv_of_step h.chain hresult, ?_⟩
  have hdecode : blockWithIdFromBin (blockWithIdToBin b) = .ok (b, []) := by
    rw [← List.append_nil (blockWithIdToBin b), blockWithIdFromBin_toBin hb.fits]
  have hcall : addBlockBytes (blockWithIdToBin b) eosioIrreversible =
      .addBlock (.ok b) eosioIrreversible := by
    rw [addBlockBytes, hdecode]
    rfl
  rw [hcall]
  intro b' hb'
  have hlog : (r.step sha256 (.addBlock (.ok b) eosioIrreversible)).2.blocks =
      r.trimmed ++ (r.chain.blockLog.addBlock b).2.2.blocks := by
    show r.trimmed ++ (r.chain.addBlockWithId b eosioIrreversible).2.blockLog.blocks = _
    rw [MicroChain.addBlockWithId_blockLog, addBlockIrreversible_blocks]
  rw [hlog] at hb'
  rcases List.mem_append.mp hb' with hb' | hb'
  · exact h.isSealed b' (List.mem_append_left _ hb')
  rcases mem_addBlock hb' with hb' | rfl
  · exact h.isSealed b' (List.mem_append_right _ hb')
  · exact hb

/-- **Every instance** that is reached. -/
theorem Reached.inv (h : Reached sha256 starterAccount r) : ReachedInv sha256 starterAccount r := by
  induction h with
  | start => exact ⟨ChainRun.inv_start starterAccount, fun b hb => absurd hb List.not_mem_nil⟩
  | feed _ hfeed hfits hresult ih => exact ih.feed hfeed hfits hresult
  | addBlock _ _ hb hresult ih ihother => exact ih.addBlock (ihother.produces hb) hresult

end Reached

/-! ## Two chains with one head -/

/-- No two blocks of the chains have different encodings with one hash. -/
def CollisionFree (sha256 : Bytes → Checksum256) (l l' : List BlockWithId) : Prop :=
  ∀ b ∈ l, ∀ b' ∈ l', sha256 (blockToBin b.toBlock) = sha256 (blockToBin b'.toBlock) →
    blockToBin b.toBlock = blockToBin b'.toBlock

section Chains

variable {sha256 : Bytes → Checksum256} {l l' : List BlockWithId}

/-- Sealed blocks with one id. -/
theorem eq_of_id {b b' : BlockWithId} (h : Sealed sha256 b) (h' : Sealed sha256 b')
    (hfree : sha256 (blockToBin b.toBlock) = sha256 (blockToBin b'.toBlock) →
      blockToBin b.toBlock = blockToBin b'.toBlock) (hid : b.id = b'.id) : b = b' := by
  rw [← h.id, ← h'.id] at hid
  have hblock := blockToBin_inj h.fits h'.fits (hfree hid)
  rw [← h.id, ← h'.id, hblock]

/-- **Two chains with one last id are equal.** The induction goes down from the last
block: each one has the id of the block before. -/
theorem eq_of_last_id (hlinked : l.IsChain Linked) (hlinked' : l'.IsChain Linked)
    (hfirst : ∀ b ∈ l.head?, b.num = 1) (hfirst' : ∀ b ∈ l'.head?, b.num = 1)
    (hsealed : ∀ b ∈ l, Sealed sha256 b) (hsealed' : ∀ b ∈ l', Sealed sha256 b)
    (hfree : CollisionFree sha256 l l') {last last' : BlockWithId}
    (hlast : l.getLast? = some last) (hlast' : l'.getLast? = some last')
    (hid : last.id = last'.id) : l = l' := by
  have heq : ∀ i j (hi : i < l.length) (hj : j < l'.length), l[i].id = l'[j].id → l[i] = l'[j] :=
    fun i j hi hj => eq_of_id (hsealed _ (List.getElem_mem hi)) (hsealed' _ (List.getElem_mem hj))
      (hfree _ (List.getElem_mem hi) _ (List.getElem_mem hj))
  rw [List.getLast?_eq_getElem?] at hlast hlast'
  obtain ⟨hi, rfl⟩ := List.getElem?_eq_some_iff.mp hlast
  obtain ⟨hj, rfl⟩ := List.getElem?_eq_some_iff.mp hlast'
  -- the last blocks are equal, so they have one number, which is the length
  have hlen : l.length = l'.length := by
    have hnum := congrArg (·.num.toNat) (heq _ _ hi hj hid)
    have hnum₁ := num_chain hlinked hfirst hi
    have hnum₂ := num_chain hlinked' hfirst' hj
    omega
  have hdown : ∀ k, ∀ i (hi : i < l.length) (hi' : i < l'.length), i + k + 1 = l.length →
      l[i] = l'[i] := by
    intro k
    induction k with
    | zero =>
      intro i hi hi' hik
      refine heq i i hi hi' ?_
      obtain rfl : i = l.length - 1 := by omega
      simpa only [hlen] using hid
    | succ k ih =>
      intro i hi hi' hik
      refine heq i i hi hi' ?_
      have hnext := congrArg (·.previous) (ih (i + 1) (by omega) (by omega) (by omega))
      rwa [(hlinked.getElem i (by omega)).2, (hlinked'.getElem i (by omega)).2] at hnext
  refine List.ext_getElem hlen fun i hi hi' => ?_
  exact hdown (l.length - 1 - i) i hi hi' (by omega)

end Chains

/-! ## Two instances with one head -/

section Instances

variable {sha256 : Bytes → Checksum256} {starterAccount : Name} {r r' : ChainRun}

theorem blocks_getLast? {r : ChainRun} {head : BlockWithId}
    (hhead : r.chain.blockLog.head = some head) : r.blocks.getLast? = some head := by
  have hne : r.chain.blockLog.blocks ≠ [] := by
    intro hnil
    rw [BlockLog.head, hnil] at hhead
    cases hhead
  rw [ChainRun.blocks, List.getLast?_append_of_ne_nil _ hne]
  exact hhead

/-- The index that queries read. -/
theorem byPk_eq {table : GreetingIndex} {t : SnapshotTable Greeting} (h : TableRefines table t) :
    byPk table = t.current.index orderedByPk := by
  obtain ⟨set, rest, hsecondary, hcomp, -⟩ := List.map_eq_cons_iff.mp h.store.secondary_comps
  have hset : set ∈ table.secondary := hsecondary ▸ List.mem_cons_self
  rw [byPk, hsecondary, ← h.current, ← hcomp]
  exact h.store.contents_eq hset

/-- What the table holds after some undos, as far as there are blocks to undo: it is
told by the chain. -/
theorem undone_content (h : ChainRun.Inv starterAccount r) {n : Nat}
    (hn : n ≤ r.chain.db.greetings.undoStack.length) :
    let table := (r.chain.forkedNBlocks n).db.greetings
    let chain := r.blocks.take (r.blocks.length - n)
    table.rows = (replaySnapshot starterAccount chain).rows ∧
      table.nextId = (replaySnapshot starterAccount chain).nextId ∧
      table.revision = chain.length ∧
      byPk table = (replaySnapshot starterAccount chain).index orderedByPk := by
  intro table chain
  have hinv : ChainInv starterAccount r.trimmed r.chain := h
  have hdepth := hinv.depth_eq
  have hirr := hinv.irreversible_le
  rw [hinv.headNum_eq] at hdepth
  rw [← List.length_append] at hirr
  have hundo := TableRefines.undo_iterate hinv.table n
  rw [replayTable_undo_iterate n (by omega)] at hundo
  have htable : table = UndoIndex.undo^[n] r.chain.db.greetings := by
    show (r.chain.forkedNBlocks n).db.greetings = _
    rw [MicroChain.forkedNBlocks_eq]
  rw [htable]
  refine ⟨?_, ?_, hundo.revision, byPk_eq hundo⟩
  · rw [hundo.store.rows_eq]
    exact congrArg Snapshot.rows hundo.current
  · exact congrArg Snapshot.nextId hundo.current

/-- The tables hold the same: the rows with their ids, the next id, the revision, and
the index by account. -/
structure SameTable (table table' : GreetingIndex) : Prop where
  rows : table.rows = table'.rows
  nextId : table.nextId = table'.nextId
  revision : table.revision = table'.revision
  byPk : byPk table = byPk table'

/-- **The head id determines the state.** Two instances, each reached by any run, whose
heads have one id: the heads have one number, the blocks with one number are equal, and
the databases hold the same, also after as many undos as both have blocks to undo. -/
theorem head_determines (h : Reached sha256 starterAccount r)
    (h' : Reached sha256 starterAccount r') (hfree : CollisionFree sha256 r.blocks r'.blocks)
    {head head' : BlockWithId} (hhead : r.chain.blockLog.head = some head)
    (hhead' : r'.chain.blockLog.head = some head') (hid : head.id = head'.id) :
    head.num = head'.num ∧
      (∀ b ∈ r.chain.blockLog.blocks, ∀ b' ∈ r'.chain.blockLog.blocks, b.num = b'.num → b = b') ∧
      SameTable r.chain.db.greetings r'.chain.db.greetings ∧
      ∀ n ≤ r.chain.db.greetings.undoStack.length, n ≤ r'.chain.db.greetings.undoStack.length →
        SameTable (r.chain.forkedNBlocks n).db.greetings (r'.chain.forkedNBlocks n).db.greetings := by
  obtain ⟨hinv, hsealed⟩ := h.inv
  obtain ⟨hinv', hsealed'⟩ := h'.inv
  have hchain : ChainInv starterAccount r.trimmed r.chain := hinv
  have hchain' : ChainInv starterAccount r'.trimmed r'.chain := hinv'
  have hblocks : r.blocks = r'.blocks := eq_of_last_id hchain.linked hchain'.linked hchain.first
    hchain'.first hsealed hsealed' hfree (blocks_getLast? hhead) (blocks_getLast? hhead') hid
  -- the database is a replay of the chain, so equal chains give equal tables
  have hundone : ∀ n ≤ r.chain.db.greetings.undoStack.length,
      n ≤ r'.chain.db.greetings.undoStack.length →
      SameTable (r.chain.forkedNBlocks n).db.greetings (r'.chain.forkedNBlocks n).db.greetings := by
    intro n hn hn'
    obtain ⟨hrows, hnext, hrev, hpk⟩ := undone_content hinv hn
    obtain ⟨hrows', hnext', hrev', hpk'⟩ := undone_content hinv' hn'
    rw [hblocks] at hrows hnext hrev hpk
    exact ⟨hrows.trans hrows'.symm, hnext.trans hnext'.symm, hrev.trans hrev'.symm,
      hpk.trans hpk'.symm⟩
  refine ⟨?_, ?_, hundone 0 (Nat.zero_le _) (Nat.zero_le _), hundone⟩
  · have hlast := blocks_getLast? hhead
    rw [hblocks, blocks_getLast? hhead'] at hlast
    rw [Option.some.inj hlast]
  · intro b hb b' hb' hnum
    have hmem : b ∈ r'.blocks := hblocks ▸ List.mem_append_right _ hb
    exact eq_of_num_eq hchain'.linked hmem (List.mem_append_right _ hb') hnum

/-- A hash for examples: the number of the block. -/
def numHash (bin : Bytes) : Checksum256 :=
  ⟨#v[(bin.headD 0).toUInt64, 0, 0, 0]⟩

/-- An instance that is fed by json. -/
def fedChain (account : Name) : ChainRun :=
  ((ChainRun.start account).step numHash
    (.addEosioBlockJson (.ok (ChainRun.hiBlock account 5)) 0)).2

/-- The bytes of the block that it adds. -/
def fedBlock (account : Name) : BlockWithId :=
  MicroChain.withId numHash (MicroChain.nextBlock {} (ChainRun.hiBlock account 5))

/-- An instance that takes these bytes, and what is final with them. -/
def followingChain (account : Name) : ChainRun :=
  ((ChainRun.start account).step numHash
    (addBlockBytes (blockWithIdToBin (fedBlock account)) 5)).2

theorem head_determines_example :
    SameTable (fedChain (Name.ofString "starter")).chain.db.greetings
      (followingChain (Name.ofString "starter")).chain.db.greetings := by
  have hfits : (ChainRun.hiBlock (Name.ofString "starter") 5).Fits := by
    simp only [EosioBlock.Fits, Transaction.Fits, Action.Fits, Sized, ChainRun.hiBlock,
      List.mem_singleton, forall_eq, List.length_singleton]
    decide +kernel
  have h : Reached numHash (Name.ofString "starter") (fedChain (Name.ofString "starter")) := by
    refine .feed .start trivial ?_ rfl
    rintro _ ⟨⟩
    exact hfits
  have h' : Reached numHash (Name.ofString "starter") (followingChain (Name.ofString "starter")) :=
    .addBlock .start .start (.pushed hfits) (by decide +kernel)
  have hhead : (fedChain (Name.ofString "starter")).chain.blockLog.head =
      some (fedBlock (Name.ofString "starter")) := by decide +kernel
  have hhead' : (followingChain (Name.ofString "starter")).chain.blockLog.head =
      some (fedBlock (Name.ofString "starter")) := by decide +kernel
  refine (head_determines h h' ?_ hhead hhead' rfl).2.2.1
  unfold CollisionFree
  decide +kernel

end Instances

end Microchain.Feed
