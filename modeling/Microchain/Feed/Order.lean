import Microchain.Box.Twin

/-!
# The order of the eosio numbers

`add_block` never compares eosio numbers. A block that is built from an eosio block is
placed behind the last block with a smaller eosio number, and what comes after that one
is forked away, so that the numbers grow along the log all the same. A trimmed log does
not have all the blocks to search; `Behind` says how it stands to the log it would be
without trimming.

- `Behind.addEosioBlock`: one eosio block.
- `run_behind`: whole runs.
- `run_eosioSorted`: **what the searches by eosio number find** after any run
  of feeds.
-/

namespace Microchain.Feed

open Eosio Subchain Starter BlockLog Box Lib

/-! ## The log behind a trimmed one -/

/-- `log` is `whole` without the blocks `pre`, and `whole` is a log that feeds have
built. -/
structure Behind (whole log : BlockLog) (pre : List BlockWithId) : Prop where
  wholeInv : whole.WellFormed
  logInv : log.WellFormed
  first : ∀ b ∈ whole.blocks.head?, b.num = 1
  sorted : EosioSorted whole.blocks
  trim : TrimOf whole log pre

namespace Behind

variable {whole log : BlockLog} {pre : List BlockWithId}

theorem numbered (h : Behind whole log pre) : NumberedFromOne whole :=
  fun _ hi => num_chain h.wholeInv.linked h.first hi

/-- An appended block leaves the first one where it is, or is number 1. -/
theorem first_addBlock (hwf : whole.WellFormed) (hfirst : ∀ b ∈ whole.blocks.head?, b.num = 1)
    (bi : BlockWithId) : ∀ b ∈ (whole.addBlock bi).2.2.blocks.head?, b.num = 1 := by
  rcases addBlock_cases hwf bi with ⟨st, -, heq⟩ | ⟨it, -, hle, heq, hone, -⟩
  · rw [heq]
    exact hfirst
  rw [heq]
  intro b hb
  dsimp only at hb
  cases htake : whole.blocks.take it with
  | nil =>
    rw [htake] at hb
    obtain rfl : bi = b := Option.some.inj hb
    rcases List.take_eq_nil_iff.mp htake with h0 | h0
    · exact hone h0
    · rw [h0] at hle
      exact hone (Nat.le_zero.mp hle)
  | cons front rest =>
    rw [htake] at hb
    obtain rfl : front = b := Option.some.inj hb
    refine hfirst front ?_
    have hhead := congrArg List.head? htake
    rw [List.head?_take] at hhead
    split at hhead
    · cases hhead
    · exact hhead

/-- **An eosio block**, whatever its number: the block that is built from what the
trimmed log offers is the one that the whole log would build, or both are refused. -/
theorem addEosioBlock (h : Behind whole log pre) (sha256 : Bytes → Checksum256)
    (eosioBlock : EosioBlock) (eosioIrreversible : UInt32) :
    ∃ whole', Behind whole' (log.addBlockIrreversible
      (MicroChain.withId sha256 (MicroChain.nextBlock log eosioBlock)) eosioIrreversible).2.2
      pre := by
  rcases nextBlock_cases h.trim h.wholeInv h.numbered h.sorted eosioBlock with heq | ⟨-, hle⟩
  · rw [heq]
    obtain ⟨bi, hbi⟩ : ∃ bi, MicroChain.withId sha256 (MicroChain.nextBlock whole eosioBlock) =
      bi := ⟨_, rfl⟩
    rw [hbi]
    have hsorted := sorted_addBlock h.wholeInv h.numbered h.sorted
      (show bi.toBlock = MicroChain.nextBlock whole eosioBlock by rw [← hbi]; rfl)
    refine ⟨_, h.wholeInv.addBlockIrreversible bi eosioIrreversible,
      h.logInv.addBlockIrreversible bi eosioIrreversible, ?_, ?_,
      h.trim.addBlockIrreversible h.wholeInv h.logInv hsorted eosioIrreversible⟩
    · rw [addBlockIrreversible_blocks]
      exact first_addBlock h.wholeInv h.first bi
    · rw [addBlockIrreversible_blocks]
      exact hsorted
  · -- the number is final
    refine ⟨whole, ?_⟩
    rw [addBlockIrreversible_of_refused (refused_of_num_le h.logInv hle)]
    exact h

/-- Blocks that go from the end take nothing from the start. -/
theorem first_of_isPrefix {P : BlockWithId → Prop} {l l' : List BlockWithId} (hinit : l' <+: l)
    (hfirst : ∀ b ∈ l.head?, P b) : ∀ b ∈ l'.head?, P b := by
  intro b hb
  obtain ⟨rest, rfl⟩ := hinit
  refine hfirst b ?_
  cases l' with
  | nil => cases hb
  | cons front l' => exact hb

theorem undo_isPrefix (log : BlockLog) (blockNum : UInt32) :
    (log.undo blockNum).2.blocks <+: log.blocks := by
  rcases undo_cases log blockNum with heq | ⟨it, -, -, -, heq⟩
  · exact ⟨[], by rw [heq, List.append_nil]⟩
  · exact ⟨log.blocks.drop it, by rw [heq, List.take_append_drop]⟩

/-- **Undoing** from a block number on. -/
theorem undo (h : Behind whole log pre) (blockNum : UInt32) :
    Behind (whole.undo blockNum).2 (log.undo blockNum).2 pre :=
  ⟨h.wholeInv.undo blockNum, h.logInv.undo blockNum, first_of_isPrefix (undo_isPrefix whole _) h.first,
    h.sorted.sublist (undo_sublist whole _), (h.trim.undo h.wholeInv blockNum).2⟩

/-- **Undoing** from an eosio number on. -/
theorem undoEosioNum (h : Behind whole log pre) (eosioNum : UInt32) :
    Behind (whole.undoEosioNum eosioNum).2 (log.undoEosioNum eosioNum).2 pre := by
  refine ⟨h.wholeInv.undoEosioNum eosioNum, h.logInv.undoEosioNum eosioNum, ?_,
    h.sorted.sublist (undoEosioNum_sublist whole _),
    (h.trim.undoEosioNum h.wholeInv h.sorted eosioNum).2⟩
  rw [BlockLog.undoEosioNum]
  split
  · exact first_of_isPrefix (undo_isPrefix whole _) h.first
  · exact h.first

/-- **Raising `irreversible`** to a block of the log. -/
theorem raiseIrreversible (h : Behind whole log pre) {block : Option BlockWithId}
    (hblock : ∀ b ∈ block, b ∈ log.blocks) :
    Behind { whole with irreversible := (log.raiseIrreversible block).irreversible }
      (log.raiseIrreversible block) pre := by
  have hwf := h.logInv.raiseIrreversible hblock
  have hle := irreversible_le_raiseIrreversible log block
  refine ⟨⟨h.wholeInv.linked, fun b hb => .inl (h.first b hb), ?_⟩, hwf, h.first, h.sorted, ?_, rfl, ?_⟩
  · refine hwf.irreversible_mem.imp_right fun ⟨b, hb, hnum⟩ => ⟨b, ?_, hnum⟩
    rw [raiseIrreversible_blocks] at hb
    dsimp only
    rw [h.trim.blocks]
    exact List.mem_append_right _ hb
  · dsimp only
    rw [h.trim.blocks, raiseIrreversible_blocks]
  · refine h.trim.start.imp_right fun ⟨b, hb, hnum⟩ => ⟨b, ?_, UInt32.le_trans hnum hle⟩
    rwa [raiseIrreversible_blocks]

/-- **Trimming** takes more blocks away. -/
theorem trimBlocks (h : Behind whole log pre) : Behind whole log.trim (pre ++ log.trimmedBy) := by
  refine ⟨h.wholeInv, h.logInv.trim, h.first, h.sorted, ?_⟩
  rw [h.trim.trim h.wholeInv h.logInv, h.trim.trimmedBy h.wholeInv h.logInv]
  exact .of_trim h.wholeInv

theorem empty : Behind {} {} [] :=
  ⟨wellFormed_empty, wellFormed_empty, by simp, .nil, rfl, rfl, .inl rfl⟩

/-- The blocks of a trimmed log are in order, too. -/
theorem eosioSorted (h : Behind whole log pre) : EosioSorted log.blocks := by
  have hsorted := h.sorted
  rw [h.trim.blocks] at hsorted
  exact (List.pairwise_append.mp hsorted).2.1

end Behind

/-! ## Runs of feeds -/

/-- Every exported mutator but `addBlock`, which takes blocks as they are. -/
def IsFeed : Call → Prop
  | .addBlock _ _ => False
  | _ => True

/-- The log after a call that adds an eosio block. -/
theorem addEosioBlock_blockLog (sha256 : Bytes → Checksum256) (m : MicroChain)
    (eosioBlock : EosioBlock) (eosioIrreversible : UInt32) :
    (m.addEosioBlock sha256 eosioBlock eosioIrreversible).2.blockLog =
      (m.blockLog.addBlockIrreversible (MicroChain.withId sha256
        (MicroChain.nextBlock m.blockLog eosioBlock)) eosioIrreversible).2.2 :=
  MicroChain.addBlockWithId_blockLog _ _ _

/-- A call that feeds an eosio block: as json, or as a message of the state history. -/
inductive Feeds (eosioBlock : EosioBlock) : Call → Prop
  | json (eosioIrreversible : UInt32) :
    Feeds eosioBlock (.addEosioBlockJson (.ok eosioBlock) eosioIrreversible)
  | ship {result : GetBlocksResult} {thisBlock : BlockPosition} {transactions : List Transaction}
    (hthis : result.thisBlock = some thisBlock)
    (htransactions : shipToTransactions result.traces = some transactions)
    (hblock : MicroChain.shipEosioBlock result thisBlock transactions = eosioBlock) :
    Feeds eosioBlock (.pushShipMessage (.ok (.getBlocksResult result)))

/-- What a feed does to the log, trimming apart. -/
inductive FedLog (sha256 : Bytes → Checksum256) (call : Call) (log : BlockLog) : BlockLog → Prop
  | same : FedLog sha256 call log log
  | addEosioBlock {eosioBlock : EosioBlock} (h : Feeds eosioBlock call)
    (eosioIrreversible : UInt32) : FedLog sha256 call log (log.addBlockIrreversible
      (MicroChain.withId sha256 (MicroChain.nextBlock log eosioBlock)) eosioIrreversible).2.2
  | setIrreversible (irreversible : UInt32) :
    FedLog sha256 call log (log.setIrreversible irreversible)
  | undo (blockNum : UInt32) : FedLog sha256 call log (log.undo blockNum).2
  | undoEosioNum (eosioNum : UInt32) : FedLog sha256 call log (log.undoEosioNum eosioNum).2

section Runs

open Starter.ChainRun

variable {sha256 : Bytes → Checksum256} {r : Starter.ChainRun}

/-- **What one call can do**, whether it returns or aborts. -/
theorem step_cases (sha256 : Bytes → Checksum256) (r : Starter.ChainRun) {call : Call}
    (hfeed : IsFeed call) :
    (r.step sha256 call).2.trimmed = r.trimmed ∧
        FedLog sha256 call r.chain.blockLog (r.step sha256 call).2.chain.blockLog ∨
      (r.step sha256 call).2.trimmed = r.trimmed ++ r.chain.blockLog.trimmedBy ∧
        (r.step sha256 call).2.chain.blockLog = r.chain.blockLog.trim := by
  have hadd : ∀ {eosioBlock}, Feeds eosioBlock call → ∀ irr, FedLog sha256 call r.chain.blockLog
      (r.chain.addEosioBlock sha256 eosioBlock irr).2.blockLog := by
    intro eosioBlock h irr
    rw [addEosioBlock_blockLog]
    exact .addEosioBlock h irr
  -- only trimming moves blocks out of the log; a text that does not decode does nothing
  cases call with
  | addEosioBlockJson json irr =>
    cases json with
    | error e => exact .inl ⟨rfl, .same⟩
    | ok b => exact .inl ⟨rfl, hadd (.json irr) irr⟩
  | addBlock data irr => exact absurd hfeed id
  | pushShipMessage data =>
    refine .inl ⟨rfl, ?_⟩
    match data with
    | .error e => exact .same
    | .ok .getStatusResult => exact .same
    | .ok (.getBlocksResult result) =>
      simp only [step, Call.exec, MicroChain.decoding, MicroChain.addShipResult]
      split
      · exact .same
      · next thisBlock hthis =>
        split
        · exact .same
        · next transactions htransactions => exact hadd (.ship hthis htransactions rfl) _
  | setIrreversible n => exact .inl ⟨rfl, .setIrreversible n⟩
  | trimBlocks => exact .inr ⟨rfl, rfl⟩
  | undoBlockNum n =>
    refine .inl ⟨rfl, ?_⟩
    show FedLog _ _ _ (r.chain.undoBlockNum n).blockLog
    rw [MicroChain.undoBlockNum_blockLog]
    exact .undo n
  | undoEosioNum n =>
    refine .inl ⟨rfl, ?_⟩
    show FedLog _ _ _ (r.chain.undoEosioNum n).blockLog
    rw [MicroChain.undoEosioNum_blockLog]
    exact .undoEosioNum n

/-- **One call** of a feed keeps a log behind some whole one. -/
theorem step_behind {whole : BlockLog} (h : Behind whole r.chain.blockLog r.trimmed) {call : Call}
    (hfeed : IsFeed call) :
    ∃ whole', Behind whole' (r.step sha256 call).2.chain.blockLog (r.step sha256 call).2.trimmed := by
  rcases step_cases sha256 r hfeed with ⟨htrimmed, hfed⟩ | ⟨htrimmed, hlog⟩
  · rw [htrimmed]
    generalize (r.step sha256 call).2.chain.blockLog = log at hfed ⊢
    cases hfed with
    | same => exact ⟨whole, h⟩
    | addEosioBlock _ irr => exact h.addEosioBlock sha256 _ irr
    | setIrreversible n => exact ⟨_, h.raiseIrreversible fun _ hb => mem_of_before hb⟩
    | undo n => exact ⟨_, h.undo n⟩
    | undoEosioNum n => exact ⟨_, h.undoEosioNum n⟩
  · rw [htrimmed, hlog]
    exact ⟨whole, h.trimBlocks⟩

/-- **Whole runs** of feeds. -/
theorem run_behind {whole : BlockLog} (h : Behind whole r.chain.blockLog r.trimmed)
    {calls : List Call} (hfeeds : ∀ call ∈ calls, IsFeed call) :
    ∃ whole', Behind whole' (r.run sha256 calls).chain.blockLog (r.run sha256 calls).trimmed := by
  induction calls generalizing r whole with
  | nil => exact ⟨whole, h⟩
  | cons call calls ih =>
    obtain ⟨hfeed, hfeeds⟩ := List.forall_mem_cons.mp hfeeds
    obtain ⟨whole', h'⟩ : ∃ whole', Behind whole' (r.step sha256 call).2.chain.blockLog
      (r.step sha256 call).2.trimmed := step_behind h hfeed
    exact ih h' hfeeds

/-! ## What the searches find -/

/-- The place of an eosio number in a sorted log. -/
theorem lowerBoundByEosioNum_spec {log : BlockLog} (h : EosioSorted log.blocks) (n : UInt32) :
    (∀ i (hi : i < log.blocks.length), i < log.lowerBoundByEosioNum n →
        getEosioNum log.blocks[i] < n) ∧
      ∀ i (hi : i < log.blocks.length), log.lowerBoundByEosioNum n ≤ i →
        n ≤ getEosioNum log.blocks[i] := by
  have hpart : Partitioned (fun b => decide (getEosioNum b < n)) log.blocks :=
    h.imp fun {a b} hab hb => decide_eq_true (UInt32.lt_trans hab (of_decide_eq_true hb))
  obtain ⟨hlow, hhigh⟩ := lowerBound_spec hpart
  refine ⟨fun i hi hlt => of_decide_eq_true (hlow i hi hlt), fun i hi hle => ?_⟩
  have hnot := hhigh i hi hle
  rw [decide_eq_true_eq] at hnot
  exact UInt32.not_lt.mp hnot

/-- The blocks with a smaller eosio number are those before its place. -/
theorem take_lowerBoundByEosioNum {log : BlockLog} (h : EosioSorted log.blocks) (n : UInt32) :
    log.blocks.take (log.lowerBoundByEosioNum n) =
      log.blocks.filter fun b => decide (getEosioNum b < n) := by
  obtain ⟨hlow, hhigh⟩ := lowerBoundByEosioNum_spec h n
  have hsplit := List.take_append_drop (log.lowerBoundByEosioNum n) log.blocks
  conv_rhs => rw [← hsplit]
  rw [List.filter_append, List.filter_eq_self.mpr, List.filter_eq_nil_iff.mpr, List.append_nil]
  · intro b hb
    obtain ⟨i, hi, rfl⟩ := List.mem_iff_getElem.mp hb
    rw [List.length_drop] at hi
    rw [List.getElem_drop, decide_eq_true_eq, UInt32.not_lt]
    exact hhigh _ (by omega) (Nat.le_add_right _ _)
  · intro b hb
    obtain ⟨i, hi, rfl⟩ := List.mem_iff_getElem.mp hb
    rw [List.length_take] at hi
    rw [List.getElem_take]
    exact decide_eq_true (hlow i (by omega) (by omega))

/-- The search finds the place of a block that is in the log. -/
theorem lowerBoundByEosioNum_getElem {log : BlockLog} (h : EosioSorted log.blocks) {i : Nat}
    (hi : i < log.blocks.length) : log.lowerBoundByEosioNum (getEosioNum log.blocks[i]) = i := by
  obtain ⟨hlow, hhigh⟩ := lowerBoundByEosioNum_spec h (getEosioNum log.blocks[i])
  rcases Nat.lt_trichotomy (log.lowerBoundByEosioNum (getEosioNum log.blocks[i])) i with
    hlt | heq | hgt
  · -- a block before it cannot have a number that large
    have hle := hhigh _ (hlt.trans hi) (Nat.le_refl _)
    exact absurd (List.pairwise_iff_getElem.mp h _ i (hlt.trans hi) hi hlt)
      (UInt32.not_lt.mpr hle)
  · exact heq
  · exact absurd (hlow i hi hgt) (UInt32.lt_irrefl _)

/-- **`block_by_eosio_num`** finds the block with the number. -/
theorem blockByEosioNum_eq_some {log : BlockLog} (h : EosioSorted log.blocks) (n : UInt32)
    (b : BlockWithId) : log.blockByEosioNum n = some b ↔ b ∈ log.blocks ∧ getEosioNum b = n := by
  constructor
  · intro hfound
    obtain ⟨hget, hnum⟩ := Option.mem_filter_iff.mp hfound
    exact ⟨List.mem_of_getElem? hget, of_decide_eq_true hnum⟩
  · rintro ⟨hb, rfl⟩
    obtain ⟨i, hi, rfl⟩ := List.mem_iff_getElem.mp hb
    rw [blockByEosioNum, lowerBoundByEosioNum_getElem h hi, List.getElem?_eq_getElem hi]
    simp

/-- **`block_before_eosio_num`** is the last block with a smaller number. -/
theorem blockBeforeEosioNum_eq {log : BlockLog} (h : EosioSorted log.blocks) (n : UInt32) :
    log.blockBeforeEosioNum n =
      (log.blocks.filter fun b => decide (getEosioNum b < n)).getLast? := by
  rw [← take_lowerBoundByEosioNum h, blockBeforeEosioNum]
  exact (getLast?_take_eq_before (lowerBound_le _ _)).symm

/-- **`undoEosioNum`** keeps the blocks with a smaller number when there is a reversible
block with this one, and everything when there is none. -/
theorem undoEosioNum_eq {log : BlockLog} (hwf : log.WellFormed) (h : EosioSorted log.blocks)
    (n : UInt32) :
    ((∃ b ∈ log.blocks, getEosioNum b = n ∧ log.irreversible < b.num) →
      (log.undoEosioNum n).2 =
        { log with blocks := log.blocks.filter fun b => decide (getEosioNum b < n) }) ∧
    ((¬ ∃ b ∈ log.blocks, getEosioNum b = n ∧ log.irreversible < b.num) →
      (log.undoEosioNum n).2 = log) := by
  constructor
  · rintro ⟨b, hb, hnum, hirr⟩
    have hfound := (blockByEosioNum_eq_some h n b).mpr ⟨hb, hnum⟩
    have hget := (Option.mem_filter_iff.mp hfound).1
    obtain ⟨hi, heq⟩ := List.getElem?_eq_some_iff.mp hget
    -- both searches stop at the block
    have hit : log.lowerBoundByNum b.num = log.lowerBoundByEosioNum n := by
      rw [← heq]
      exact lowerBoundByNum_getElem hwf.linked hi
    rw [BlockLog.undoEosioNum, hfound]
    dsimp only
    rw [BlockLog.undo, if_neg (UInt32.not_le.mpr hirr), hit, ← take_lowerBoundByEosioNum h]
    dsimp only
    rw [hget, if_pos (by simp)]
  · intro hnone
    rw [BlockLog.undoEosioNum]
    split
    · next b hfound =>
      have hmem := (blockByEosioNum_eq_some h n b).mp hfound
      -- the block that is found is final, and undo refuses
      have hle : b.num ≤ log.irreversible := by
        by_contra hgt
        exact hnone ⟨b, hmem.1, hmem.2, UInt32.not_le.mp hgt⟩
      rw [BlockLog.undo, if_pos hle]
    · rfl

/-- **The eosio numbers grow along the log** after every run of feeds, undos,
irreversibility updates and trims, and so the searches by eosio number find what they
are for. -/
theorem run_eosioSorted (sha256 : Bytes → Checksum256) (starterAccount : Name)
    (calls : List Call) (hfeeds : ∀ call ∈ calls, IsFeed call) :
    let m := ((start starterAccount).run sha256 calls).chain
    (m.blockLog.blocks.Pairwise fun a b => getEosioNum a < getEosioNum b) ∧
    (∀ n b, m.blockLog.blockByEosioNum n = some b ↔
      b ∈ m.blockLog.blocks ∧ getEosioNum b = n) ∧
    (∀ n, m.blockLog.blockBeforeEosioNum n =
      (m.blockLog.blocks.filter fun b => decide (getEosioNum b < n)).getLast?) ∧
    ∀ n,
      ((∃ b ∈ m.blockLog.blocks, getEosioNum b = n ∧ m.blockLog.irreversible < b.num) →
        (m.undoEosioNum n).blockLog = { m.blockLog with
          blocks := m.blockLog.blocks.filter fun b => decide (getEosioNum b < n) }) ∧
      ((¬ ∃ b ∈ m.blockLog.blocks, getEosioNum b = n ∧ m.blockLog.irreversible < b.num) →
        (m.undoEosioNum n).blockLog = m.blockLog) := by
  intro m
  obtain ⟨whole, hbehind⟩ : ∃ whole, Behind whole m.blockLog
    ((start starterAccount).run sha256 calls).trimmed := run_behind Behind.empty hfeeds
  have hsorted : EosioSorted m.blockLog.blocks := hbehind.eosioSorted
  have hwf : m.blockLog.WellFormed := hbehind.logInv
  refine ⟨hsorted, blockByEosioNum_eq_some hsorted, blockBeforeEosioNum_eq hsorted, fun n => ?_⟩
  rw [MicroChain.undoEosioNum_blockLog]
  exact undoEosioNum_eq hwf hsorted n

/-- A stale eosio number between two undos and a trim. -/
theorem run_eosioSorted_example :
    let m := ((start (Name.ofString "starter")).run (fun _ => {})
      (forkCalls (Name.ofString "starter") ++
        [.addEosioBlockJson (.ok (hiBlock (Name.ofString "starter") 6)) 0])).chain
    m.blockLog.blocks.Pairwise fun a b => getEosioNum a < getEosioNum b := by
  refine (run_eosioSorted (fun _ => {}) (Name.ofString "starter") _ ?_).1
  intro call hcall
  simp only [forkCalls, List.cons_append, List.nil_append, List.mem_cons, List.not_mem_nil,
    or_false] at hcall
  rcases hcall with rfl | rfl | rfl | rfl | rfl | rfl <;> exact trivial

end Runs

end Microchain.Feed
